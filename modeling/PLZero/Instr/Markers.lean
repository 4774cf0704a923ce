import PLZero.Instr.CodeError

/-! The control markers that stand open while code is read, each with what its reader keeps for it. -/

namespace PLZero

structure OpenMarker (φ : Type) where
  frame : φ
  /-- The opcode and line of the instruction that opened it. -/
  marker : String
  line : Nat
  deriving DecidableEq, Repr

/-- Open markers, the innermost first. -/
abbrev Markers (φ : Type) := List (OpenMarker φ)

namespace Markers

variable {φ β : Type}

def push (m : Markers φ) (frame : φ) (i : Instr) : Markers φ := ⟨frame, i.op.opcode, i.line⟩ :: m

/-- What `select` sees in the innermost frame, if that is the one the instruction belongs to. -/
def top (m : Markers φ) (i : Instr) (select : φ → Option β) : Except CodeError β :=
  match m with
  | o :: _ => match select o.frame with
    | some b => .ok b
    | none => .error (.unmatchedAt i)
  | [] => .error (.unmatchedAt i)

def replace (m : Markers φ) (frame : φ) : Markers φ :=
  match m with
  | o :: rest => { o with frame } :: rest
  | [] => []

/-- Closes the innermost marker, if it is the one the instruction belongs to. -/
def pop (m : Markers φ) (i : Instr) (select : φ → Option β) : Except CodeError (β × Markers φ) :=
  match m with
  | o :: rest => match select o.frame with
    | some b => .ok (b, rest)
    | none => .error (.unmatchedAt i)
  | [] => .error (.unmatchedAt i)

def finish (m : Markers φ) : Except CodeError Unit :=
  match m with
  | o :: _ => .error (.unclosed o.marker o.line)
  | [] => .ok ()

end Markers

end PLZero
