import PLZero.Hook
import PLZero.Operator
import PLZero.Text.Decimal

/-! The text of stack modules, in the WebAssembly text format. The own variables of a procedure are
globals too; each call saves them in locals, clears them, and puts them back at its end. -/

namespace PLZero.StackModule

def entryExport : String := "main"

def entryId : String := "__main"

def opName : BinOp → String
  | .add => "i32.add"
  | .sub => "i32.sub"
  | .mul => "i32.mul"
  | .div => "i32.div_s"
  | .lt => "i32.lt_s"
  | .le => "i32.le_s"
  | .eq => "i32.eq"
  | .ne => "i32.ne"
  | .gt => "i32.gt_s"
  | .ge => "i32.ge_s"

def constText (v : Int32) : String := "(i32.const " ++ Text.ofWord v ++ ")"

def getText (global : String) : String := "(global.get $" ++ global ++ ")"

def setText (global value : String) : String := "(global.set $" ++ global ++ " " ++ value ++ ")"

def operText (op : BinOp) (left right : String) : String :=
  "(" ++ opName op ++ " " ++ left ++ " " ++ right ++ ")"

structure Line where
  depth : Nat
  content : String
  deriving DecidableEq, Repr

def Line.text (l : Line) : String := "".pushn ' ' (2 * l.depth) ++ l.content ++ "\n"

def exportText (name : String) : String := " (export \"" ++ name ++ "\")"

structure Global where
  id : String
  exported : Option String
  /-- The value of a constant; variables start at zero. -/
  constant : Option Int32
  deriving DecidableEq, Repr

def Global.line (g : Global) : Line :=
  let kind := match g.constant with
    | some v => " i32 " ++ constText v
    | none => " (mut i32) " ++ constText 0
  ⟨1, "(global $" ++ g.id ++ g.exported.elim "" exportText ++ kind ++ ")"⟩

inductive Edit
  | line (text : String)
  /-- A line that opens a level. -/
  | opening (text : String)
  | closing
  deriving DecidableEq, Repr

structure Body where
  lines : Array Line
  indent : Nat

namespace Body

def line (b : Body) (text : String) : Body := { b with lines := b.lines.push ⟨b.indent + 2, text⟩ }

/-- The indentation is not lowered below zero. -/
def edit (b : Body) : Edit → Body
  | .line text => b.line text
  | .opening text => { b.line text with indent := b.indent + 1 }
  | .closing => { b with indent := b.indent - 1 }.line ")"

def ofEdits (edits : List Edit) : Body := edits.foldl edit ⟨#[], 0⟩

end Body

def savedLocal (index : Nat) : String := "$__saved" ++ Text.ofNat index

/-- A function: locals for what it saves, saving and clearing, the body, and putting back. -/
def functionLines (id : String) (exported : Option String) (saved : List String)
    (edits : List Edit) : List Line :=
  let slots := saved.zipIdx
  ⟨1, "(func $" ++ id ++ exported.elim "" exportText⟩
    :: slots.map (fun (_, i) => ⟨2, "(local " ++ savedLocal i ++ " i32)"⟩)
    ++ slots.flatMap (fun (g, i) =>
      [⟨2, "(local.set " ++ savedLocal i ++ " " ++ getText g ++ ")"⟩, ⟨2, setText g (constText 0)⟩])
    ++ (Body.ofEdits edits).lines.toList
    ++ slots.reverse.map (fun (g, i) => ⟨2, setText g ("(local.get " ++ savedLocal i ++ ")")⟩)
    ++ [⟨1, ")"⟩]

def moduleLines (globals : List Global) (functions : List (List Line)) : List Line :=
  ⟨0, "(module"⟩ :: Hook.all.map (fun h => ⟨1, h.importText⟩) ++ globals.map Global.line
    ++ functions.flatten ++ [⟨0, ")"⟩]

end PLZero.StackModule
