import PLZero.Instr.Folded
import PLZero.StackModule.Emit

/-! Stack modules as trees: functions and an entry function with structured control. The code of a function
is printed as edits of its body. -/

namespace PLZero.StackModule

/-- A place to branch to: behind a numbered block, or back to the start of its loop. -/
inductive Label
  | behind (n : Nat)
  | again (n : Nat)
  deriving DecidableEq, Repr

def Label.text : Label → String
  | .behind n => Writer.behindLabel n
  | .again n => Writer.againLabel n

inductive Code
  | set (global : String) (value : Folded)
  | read (global : String)
  | write (value : Folded)
  | call (function : String)
  | ifElse (cond : Folded) (body : List Code) (otherwise : Option (List Code))
  | block (label : Label) (body : List Code)
  | loop (label : Label) (body : List Code)
  | branch (label : Label)
  /-- Branches if the value is zero. -/
  | branchIfZero (label : Label) (value : Folded)
  /-- Branches if the global is not below the bound. -/
  | branchUnlessBelow (label : Label) (global : String) (bound : Folded)
  | increment (global : String)
  deriving Inhabited

structure Function where
  id : String
  /-- The globals that hold its own variables. -/
  saved : List String
  body : List Code

end StackModule

structure StackModule where
  globals : List StackModule.Global
  functions : List StackModule.Function
  entry : List StackModule.Code

namespace StackModule

/-- Arithmetic is that of signed 32-bit words. A division traps when its divisor is zero or its quotient
is no such word. -/
def operate : BinOp → Int32 → Int32 → Option Int32
  | .div, l, r => if r = 0 || l = Int32.minValue && r = -1 then none else some (l / r)
  | op, l, r => op.apply l r

def exprText : Folded → String
  | .const v => constText v
  | .name global => getText global
  | .binary op left right => operText op (exprText left) (exprText right)

mutual

def Code.edits : Code → List Edit
  | .set global value => [.line (setText global (exprText value))]
  | .read global => [.line (setText global ("(call " ++ Hook.read.id ++ ")"))]
  | .write value => [.line ("(call " ++ Hook.write.id ++ " " ++ exprText value ++ ")")]
  | .call function => [.line ("(call $" ++ function ++ ")")]
  | .ifElse cond body otherwise =>
    Writer.openGuard (exprText cond) ++ Code.editsAll body ++ .closing :: (match otherwise with
        | some body => .opening "(else" :: Code.editsAll body ++ [.closing]
        | none => []) ++ [.closing]
  | .block label body => .opening ("(block " ++ label.text) :: Code.editsAll body ++ [.closing]
  | .loop label body => .opening ("(loop " ++ label.text) :: Code.editsAll body ++ [.closing]
  | .branch label => [.line ("(br " ++ label.text ++ ")")]
  | .branchIfZero label value =>
    [.line (Writer.branchIfText label.text ("(i32.eqz " ++ exprText value ++ ")"))]
  | .branchUnlessBelow label global bound =>
    [.line (Writer.branchIfText label.text (operText .ge (getText global) (exprText bound)))]
  | .increment global =>
    [.line (setText global (operText .add (getText global) (constText 1)))]

def Code.editsAll : List Code → List Edit
  | [] => []
  | c :: rest => c.edits ++ Code.editsAll rest

end

def Function.lines (f : Function) : List Line :=
  functionLines f.id none f.saved (Code.editsAll f.body)

def entryLines (m : StackModule) : List Line :=
  functionLines entryId (some entryExport) [] (Code.editsAll m.entry)

def lines (m : StackModule) : List Line :=
  moduleLines m.globals (m.functions.map Function.lines ++ [m.entryLines])

def text (m : StackModule) : String := String.join (m.lines.map Line.text)

/-- A loop inside the block that its exit branches out of. -/
def loopBlock (number : Nat) (body : List Code) : Code :=
  .block (.behind number) [.loop (.again number) (body ++ [.branch (.again number)])]

theorem Code.editsAll_append (a b : List Code) :
    Code.editsAll (a ++ b) = Code.editsAll a ++ Code.editsAll b := by
  induction a with
  | nil => rfl
  | cons c a ih => simp only [List.cons_append, Code.editsAll, ih, List.append_assoc]

theorem Code.editsAll_singleton (c : Code) : Code.editsAll [c] = c.edits := List.append_nil _

def editsElse (otherwise : Option (List Code)) : List Edit :=
  .closing :: (match otherwise with
    | some body => .opening "(else" :: Code.editsAll body ++ [.closing]
    | none => []) ++ [.closing]

theorem edits_ifElse (cond : Folded) (body : List Code) (otherwise : Option (List Code)) :
    (Code.ifElse cond body otherwise).edits =
      Writer.openGuard (exprText cond) ++ Code.editsAll body ++ editsElse otherwise := by
  cases otherwise <;> simp [Code.edits, editsElse]

theorem edits_loopBlock (number : Nat) (body : List Code) :
    (loopBlock number body).edits =
      Writer.openLoop number ++ Code.editsAll body ++ Writer.closeLoop number := by
  simp [loopBlock, Code.editsAll_append, Code.editsAll, Code.edits, Writer.openLoop,
    Writer.closeLoop, Label.text]

end PLZero.StackModule
