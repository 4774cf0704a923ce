import PLZero.StackModule.Run
import Std.Data.ExtTreeSet

/-! The room a function takes while it is open, in cells of one word: one for each local, as many as its
operands take up at their highest, and one for each constant that no instruction can hold. What constants
alone decide is decided before the run, and code that is ruled out so takes no room. -/

namespace PLZero.CommandLine

/-- What is known of an operand before the run. -/
inductive Operand
  | known (value : Int32)
  | computed
  deriving DecidableEq, Repr

structure Room where
  height : Nat
  constants : Std.ExtTreeSet Int
  deriving DecidableEq

namespace Room

def reach (r : Room) (height : Nat) : Room := { r with height := max r.height height }

/-- Room for a constant, one cell however often it is used. -/
def keep (r : Room) (value : Int32) : Room := { r with constants := r.constants.insert value.toInt }

/-- An instruction holds a constant of 16 bits itself. -/
def fits (value : Int32) : Bool := -32768 ≤ value && value ≤ 32767

def hold (r : Room) (value : Int32) : Room := if fits value then r else r.keep value

def argument (r : Room) : Operand → Room
  | .known value => r.keep value
  | .computed => r

end Room

abbrev Knowns := Std.ExtTreeMap String Int32

/-- The room of an operation and its result; no result if it always traps. A subtraction of a constant is
the addition of its opposite. -/
def operationRoom (r : Room) : String → Operand → Operand → Room × Option Operand
  | name, .known left, .known right =>
    match Sexp.operate name left right with
    | .value v => (r, some (.known v))
    | _ => (r, none)
  | _, .known left, .computed => (r.hold left, some .computed)
  | "i32.div_s", .computed, .known right =>
    if right = 0 then (r, none) else (r.hold right, some .computed)
  | "i32.sub", .computed, .known right =>
    (if Room.fits (-right) then r else r.keep right, some .computed)
  | _, .computed, .known right => (r.hold right, some .computed)
  | _, .computed, .computed => (r, some .computed)

/-- The room of an expression above `depth` other operands, and its result. -/
def exprRoom (ks : Knowns) (depth : Nat) : Sexp → Room → Room × Option Operand
  | .list [.word "i32.const", .word n], r =>
    (r.reach (depth + 1), (Text.readWord n.toList).map .known)
  | .list [.word "global.get", .word id], r =>
    (r.reach (depth + 1), some (ks[id]?.elim .computed .known))
  | .list [.word "i32.eqz", x], r =>
    match exprRoom ks depth x r with
    | (r, none) => (r, none)
    | (r, some v) => operationRoom (r.reach (depth + 2)) "i32.eq" v (.known 0)
  | .list [.word name, x, y], r =>
    match exprRoom ks depth x r with
    | (r, none) => (r, none)
    | (r, some left) =>
      match exprRoom ks (depth + 1) y r with
      | (r, none) => (r, none)
      | (r, some right) => operationRoom r name left right
  | _, r => (r.reach (depth + 1), some .computed)

structure Flow where
  room : Room
  goesOn : Bool
  targets : List String

namespace Flow

def next (r : Room) : Flow := ⟨r, true, []⟩

def behind (e : Room × Option Operand) (k : Room → Operand → Flow) : Flow :=
  match e with
  | (r, some v) => k r v
  | (r, none) => ⟨r, false, []⟩

def branchIf (label : String) (r : Room) : Operand → Flow
  | .known v => if v = 0 then next r else ⟨r, false, [label]⟩
  | .computed => ⟨r, true, [label]⟩

def without (f : Flow) (label : String) : Flow :=
  { f with targets := f.targets.filter (· ≠ label) }

/-- One of two pieces of code, the second in what room the first takes. -/
def either (f : Flow) (g : Room → Flow) : Flow :=
  let g := g f.room
  ⟨g.room, f.goesOn || g.goesOn, f.targets ++ g.targets⟩

end Flow

mutual

def flow (ks : Knowns) : Sexp → Room → Flow
  | .list [.word "global.set", _, x], r =>
    .behind (exprRoom ks 0 x r) fun r v => match v with
      | .known v => .next (r.hold v)
      | .computed => .next r
  | .list [.word "local.set", _, x], r => .behind (exprRoom ks 0 x r) fun r _ => .next r
  | .list [.word "call", _, x], r => .behind (exprRoom ks 0 x r) fun r v => .next (r.argument v)
  | .list (.word "if" :: x :: .list (.word "then" :: body) :: rest), r =>
    .behind (exprRoom ks 0 x r) fun r v => match v with
      | .known v => if v ≠ 0 then flowAll ks body r else flowElse ks rest r
      | .computed => .either (flowAll ks body r) fun r => flowElse ks rest r
  | .list (.word "block" :: .word label :: body), r =>
    let f := flowAll ks body r
    { f.without label with goesOn := f.goesOn || label ∈ f.targets }
  | .list (.word "loop" :: .word label :: body), r => (flowAll ks body r).without label
  | .list [.word "br", .word label], r => ⟨r, false, [label]⟩
  | .list [.word "br_if", .word label, x], r =>
    .behind (exprRoom ks 0 x r) (Flow.branchIf label)
  | _, r => .next r

def flowElse (ks : Knowns) : List Sexp → Room → Flow
  | [.list (.word "else" :: body)], r => flowAll ks body r
  | _, r => .next r

def flowAll (ks : Knowns) : List Sexp → Room → Flow
  | [], r => .next r
  | x :: rest, r =>
    let f := flow ks x r
    if f.goesOn then
      let g := flowAll ks rest f.room
      { g with targets := f.targets ++ g.targets }
    else f

end

/-- The cells of a function: those that hold no constants, and those that do. -/
structure Cells where
  slots : Nat
  constants : Nat

def Cells.total (c : Cells) : Nat := c.slots + c.constants

def functionCells (fields : List Field) : List (String × Cells) :=
  let known : Field → Option (String × Int32)
    | .global id _ false (.list [.word "i32.const", .word n]) =>
      (Text.readWord n.toList).map (id, ·)
    | _ => none
  let ks : Knowns := .ofList (fields.filterMap known)
  fields.filterMap fun
    | .function id _ locals body =>
      let r := (flowAll ks body ⟨0, ∅⟩).room
      some (id, ⟨locals.length + r.height, r.constants.size⟩)
    | _ => none

/-- Calls take the cells of their functions; those of the host need one for the value that is passed. -/
def meter (cells : List (String × Cells)) (room : Nat) : StackModule.Meter Nat where
  start := room
  enter id room :=
    match cells.lookup id with
    | some c => if c.total < room then some (room - c.total) else none
    | none => if 1 < room then some room else none

end PLZero.CommandLine
