import PLZero.Proofs.Layers
import Std.Data.ExtTreeMap

/-! The meaning of a program, computed on its tree. Names are scoped lexically and every call has a set of
locals of its own; the arithmetic is a parameter. A run is cut off when more calls are open, or one loop
goes around more often, than it was given. -/

namespace PLZero

namespace Meaning

inductive Fault
  | division (line : Nat)
  | undeclared (name : String)
  deriving DecidableEq, Repr

inductive Result (α : Type)
  | done (a : α)
  | fault (f : Fault)
  | exhausted
  deriving DecidableEq, Repr

namespace Result

def bind {α β : Type} (o : Result α) (k : α → Result β) : Result β :=
  match o with
  | done a => k a
  | fault f => fault f
  | exhausted => exhausted

instance : Monad Result where
  pure := done
  bind := bind

end Result

/-- The values of the names of one scope; a name that was not assigned has none. -/
abbrev Frame := Std.ExtTreeMap String Int32

theorem Frame.getElem?_insert (fr : Frame) (name other : String) (v : Int32) :
    (fr.insert name v)[other]? = if name = other then some v else fr[other]? := by
  simp [Std.ExtTreeMap.getElem?_insert]

theorem Frame.getElem?_erase (fr : Frame) (name other : String) :
    (fr.erase name)[other]? = if name = other then none else fr[other]? := by
  simp [Std.ExtTreeMap.getElem?_erase]

structure State where
  /-- One frame for each scope in sight, the innermost first. -/
  frames : List Frame
  output : Array Int32
  deriving DecidableEq

namespace State

def initial : State := ⟨[∅], #[]⟩

def globals (s : State) : Frame := s.frames.getLast?.getD ∅

def get (s : State) (depth : Nat) (name : String) : Option Int32 := (s.frames[depth]?).bind (·[name]?)

def set (s : State) (depth : Nat) (name : String) (v : Int32) : State :=
  { s with frames := s.frames.modify depth (·.insert name v) }

/-- A variable is declared without a value. -/
def clear (s : State) (name : String) : State := { s with frames := s.frames.modify 0 (·.erase name) }

def write (s : State) (v : Int32) : State := { s with output := s.output.push v }

/-- The value of a variable or constant, zero for one that was not assigned. -/
def read (s : State) (layers : List Layer) (name : String) : Result Int32 :=
  match lookup layers name with
  | some ⟨depth, .var _, _, _⟩ => .done ((s.get depth name).getD 0)
  | some ⟨depth, .const _ _, _, _⟩ => .done ((s.get depth name).getD 0)
  | _ => .fault (.undeclared name)

def assign (s : State) (layers : List Layer) (name : String) (v : Int32) : Result State :=
  match lookup layers name with
  | some ⟨depth, .var _, _, _⟩ => .done (s.set depth name v)
  | _ => .fault (.undeclared name)

def assignAll (layers : List Layer) (v : Int32) : List String → State → Result State
  | [], s => .done s
  | name :: names, s => do assignAll layers v names (← s.assign layers name v)

/-- What a procedure declared `depth` scopes out sees: a new frame, and those from its scope on. -/
def enter (s : State) (depth : Nat) : State := { s with frames := ∅ :: s.frames.drop depth }

/-- Back at the call, where the nearer scopes are in sight again. -/
def leave (s caller : State) (depth : Nat) : State :=
  { s with frames := caller.frames.take depth ++ s.frames.tail }

end State

theorem State.read_of_lookup {layers : List Layer} {name : String} {f : Found} (s : State)
    (hf : lookup layers name = some f) (hb : f.entry.isProcedure = false) :
    s.read layers name = .done ((s.get f.depth name).getD 0) := by
  obtain ⟨depth, entry, home, outer⟩ := f
  cases entry with
  | var name => simp only [read, hf]
  | const name v => simp only [read, hf]
  | procedure name body => cases hb

theorem State.assign_of_lookup {layers : List Layer} {name : String} {f : Found} (s : State)
    (hf : lookup layers name = some f) (he : f.entry = .var name) (v : Int32) :
    s.assign layers name v = .done (s.set f.depth name v) := by
  obtain ⟨depth, entry, home, outer⟩ := f
  subst he
  simp only [assign, hf]

/-- Goes around as long as `test` holds, less than `n` times. -/
def loop (test : State → Result Bool) (body : State → Result State) : Nat → State → Result State
  | 0, _ => .exhausted
  | n + 1, s => do if ← test s then loop test body n (← body s) else return s

end Meaning

open Meaning

/-- The frame of the innermost scope behind a declaration. -/
def Decl.exec (layers : List Layer) : Decl → State → State
  | .var name none _, s => s.clear name
  | .var name (some init) _, s => (s.clear name).set 0 name (init.valueIn layers)
  | .const name init _, s => s.set 0 name (init.elim 0 (·.valueIn layers))

def Decl.execAll (outer : List Layer) : Layer → List Decl → State → State
  | _, [], s => s
  | l, d :: ds, s => execAll outer (l.add (d.entry (l :: outer))) ds (d.exec (l :: outer) s)

section

variable (operate : BinOp → Int32 → Int32 → Option Int32)

def Expr.eval (layers : List Layer) (s : State) : Expr → Result Int32
  | .binary op left right line => do
    let l ← left.eval layers s
    let r ← right.eval layers s
    match operate op l r with
    | some v => return v
    | none => .fault (.division line)
  | .literal value _ => return value
  | .ident name _ => s.read layers name

def Expr.writeAll (layers : List Layer) : List Expr → State → Result State
  | [], s => return s
  | e :: es, s => do writeAll layers es (s.write (← e.eval operate layers s))

variable (readValue : Int32) (turns : Nat) (call : List Layer → Layer → Block → State → Result State)

mutual

/-- Executes a statement in the scope `l` inside `outer`, given what the call of a procedure does. -/
def Stmt.exec (outer : List Layer) (l : Layer) : Stmt → State → Result State
  | .assign name value _, s => do
    s.assign (l :: outer) name (← value.eval operate (l :: outer) s)
  | .ifElse cond body elseIfs otherwise _, s => do
    if (← cond.eval operate (l :: outer) s) ≠ 0 then Stmt.execAll outer l body s
    else ElseIf.execAll outer (Stmt.afterAll l body) elseIfs (fun l s => match otherwise with
      | some other => Stmt.execAll outer l other s
      | none => return s) s
  | .whileDo cond body _, s =>
    loop (fun s => do return (← cond.eval operate (l :: outer) s) ≠ 0)
      (fun s => Stmt.execAll outer l body s) turns s
  | .forTo counter start bound body _, s => do
    let s ← s.assign (l :: outer) counter (← start.eval operate (l :: outer) s)
    loop
      (fun s => do
        let limit ← bound.eval operate (l :: outer) s
        return (← s.read (l :: outer) counter) < limit)
      (fun s => do
        let s ← Stmt.execAll outer l body s
        s.assign (l :: outer) counter ((← s.read (l :: outer) counter) + 1)) turns s
  | .read names _, s => State.assignAll (l :: outer) readValue names s
  | .write values _, s => Expr.writeAll operate (l :: outer) values s
  | .call name _, s =>
    match lookup (l :: outer) name with
    | some ⟨depth, .procedure _ body, home, outer⟩ => do
      let inner ← call (home :: outer) (home.inside name) body (s.enter depth)
      return inner.leave s depth
    | _ => .fault (.undeclared name)
  | .group body _, s => Stmt.execAll outer l body s
  | .procedure .., s => return s

def Stmt.execAll (outer : List Layer) (l : Layer) : List Stmt → State → Result State
  | [], s => return s
  | t :: ts, s => do Stmt.execAll outer (t.after l) ts (← t.exec outer l s)

/-- Executes the branch behind the first guard that holds, or else `last`. -/
def ElseIf.execAll (outer : List Layer) (l : Layer) :
    List ElseIf → (Layer → State → Result State) → State → Result State
  | [], last, s => last l s
  | ⟨cond, body, _⟩ :: others, last, s => do
    if (← cond.eval operate (l :: outer) s) ≠ 0 then Stmt.execAll outer l body s
    else ElseIf.execAll outer (Stmt.afterAll l body) others last s

end

def Block.exec (outer : List Layer) (l : Layer) (b : Block) (s : State) : Result State :=
  match b.stmt with
  | some t =>
    t.exec operate readValue turns call outer (Decl.afterAll outer l b.decls) (Decl.execAll outer l b.decls s)
  | none => return Decl.execAll outer l b.decls s

def Block.execAll (outer : List Layer) : Layer → List Block → State → Result State
  | _, [], s => return s
  | l, b :: bs, s => do
    Block.execAll outer (b.after outer l) bs (← b.exec operate readValue turns call outer l s)

end

/-- Calls a procedure while at most `n` calls, this one included, may be open. -/
def callWithin (operate : BinOp → Int32 → Int32 → Option Int32) (readValue : Int32) (turns : Nat) :
    Nat → List Layer → Layer → Block → State → Result State
  | 0, _, _, _, _ => .exhausted
  | n + 1, outer, l, b, s =>
    b.exec operate readValue turns (callWithin operate readValue turns n) outer l s

/-- The meaning of a program, by at most `fuel` open calls and rounds of a loop. -/
def Program.exec (operate : BinOp → Int32 → Int32 → Option Int32) (readValue : Int32) (fuel : Nat)
    (p : Program) : Result State :=
  Block.execAll operate readValue fuel (callWithin operate readValue fuel fuel) [] .initial p.blocks .initial

end PLZero
