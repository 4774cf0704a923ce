import PLZero.Replay.JumpCode
import PLZero.Replay.ReplayError
import Std.Data.ExtTreeMap

/-! The replay machine: a stack machine over jump code that can stop before any step that has a source
line. A stop at a line shows the state just before the line runs. -/

namespace PLZero.Replay

/-- Variables with their values, by name; a variable that was touched and never assigned has none. -/
abbrev Store := Std.ExtTreeMap String (Option Int32)

namespace Store

def value (s : Store) (name : String) : Option Int32 := s[name]?.join

def set (s : Store) (name : String) (v : Option Int32) : Store := s.insert name v

def touch (s : Store) (name : String) : Store := s.insertIfNew name none

theorem value_set (s : Store) (name other : String) (v : Option Int32) :
    (s.set name v).value other = if name = other then v else s.value other := by
  by_cases h : name = other <;> simp [set, value, Std.ExtTreeMap.getElem?_insert, h]

theorem value_touch (s : Store) (name other : String) : (s.touch name).value other = s.value other := by
  simp only [touch, value, Std.ExtTreeMap.getElem?_insertIfNew]
  split
  · next h =>
    obtain ⟨h, absent⟩ := h
    simp [← Std.LawfulEqCmp.eq_of_compare h, Std.ExtTreeMap.getElem?_eq_none absent]
  · rfl

end Store

structure Activation where
  procedure : Nat
  locals : Store
  returnTo : Nat
  deriving DecidableEq

abbrev Calls := Array Activation

namespace Calls

/-- The position of the latest activation of a procedure among the first `n`. -/
def latestBelow (calls : Calls) (procedure : Nat) : Nat → Option Nat
  | 0 => none
  | n + 1 =>
    match calls[n]? with
    | some a => if a.procedure = procedure then some n else latestBelow calls procedure n
    | none => latestBelow calls procedure n

def latest? (calls : Calls) (procedure : Nat) : Option Nat := calls.latestBelow procedure calls.size

end Calls

structure Config where
  /-- What every `read` yields. -/
  readValue : Int32
  maxSteps : Nat
  deriving DecidableEq, Repr

def Config.default : Config := ⟨1, 1000000⟩

structure Machine where
  pc : Nat
  stack : List Int32
  globals : Store
  calls : Calls
  output : Array Int32
  steps : Nat
  lastLine : Option Nat
  deriving DecidableEq

inductive Place
  | outside
  | activation (position : Nat)
  deriving DecidableEq, Repr

structure Probe where
  steps : Nat
  line : Nat
  /-- The step is the first of a run of steps on its line. -/
  boundary : Bool
  depth : Nat
  deriving DecidableEq, Repr

namespace Machine

def initial : Machine := ⟨0, [], ∅, #[], #[], 0, none⟩

/-- The variables of an owner live in its latest activation, those without owner outside. -/
def place? (m : Machine) : Option Nat → Option Place
  | none => some .outside
  | some owner => (m.calls.latest? owner).map .activation

def store (m : Machine) : Place → Store
  | .outside => m.globals
  | .activation position => (m.calls[position]?).elim ∅ (·.locals)

def withStore (m : Machine) (place : Place) (f : Store → Store) : Machine :=
  match place with
  | .outside => { m with globals := f m.globals }
  | .activation position =>
    { m with calls := m.calls.modify position fun a => { a with locals := f a.locals } }

def stuck (e : Exec) : ReplayError := .structural (.underflow e.step.name (e.line.getD 0))

def unowned (v : VarRef) (e : Exec) : ReplayError :=
  .structural (.unknownName v.name (e.line.getD 0))

/-- The value of a variable, zero if it has none; the variable counts as touched. -/
def fetch (m : Machine) (v : VarRef) (e : Exec) : Except ReplayError (Int32 × Machine) :=
  match m.place? v.owner with
  | some place =>
    .ok (((m.store place).value v.name).getD 0, m.withStore place (·.touch v.name))
  | none => .error (unowned v e)

def assign (m : Machine) (v : VarRef) (value : Option Int32) (e : Exec) : Except ReplayError Machine :=
  match m.place? v.owner with
  | some place => .ok (m.withStore place (·.set v.name value))
  | none => .error (unowned v e)

def pop (m : Machine) (e : Exec) : Except ReplayError (Int32 × Machine) :=
  match m.stack with
  | v :: stack => .ok (v, { m with stack })
  | [] => .error (stuck e)

def push (m : Machine) (v : Int32) : Machine := { m with stack := v :: m.stack }

def goTo (m : Machine) (pc : Nat) : Machine := { m with pc }

def next (m : Machine) : Machine := m.goTo (m.pc + 1)

def execute (p : JumpCode) (readValue : Int32) (m : Machine) (e : Exec) : Except ReplayError Machine :=
  match e.step with
  | .declare v => do return (← m.assign v none e).next
  | .const v value => do return (← m.assign v (some value) e).next
  | .load v => do
    let (value, m) ← m.fetch v e
    return (m.push value).next
  | .store v => do
    let (value, m) ← m.pop e
    return (← m.assign v (some value) e).next
  | .push value => .ok (m.push value).next
  | .oper op => do
    let (right, m) ← m.pop e
    let (left, m) ← m.pop e
    match op.apply left right with
    | some value => return (m.push value).next
    | none => .error (.divisionByZero (e.line.getD 0))
  | .read v => do return (← m.assign v (some readValue) e).next
  | .write => do
    let (value, m) ← m.pop e
    return { m with output := m.output.push value }.next
  | .call procedure =>
    match p.procedures[procedure]? with
    | some q => .ok { m with calls := m.calls.push ⟨procedure, ∅, m.pc + 1⟩, pc := q.entry }
    | none => .error (stuck e)
  | .leave =>
    match m.calls.back? with
    | some a => .ok { m with calls := m.calls.pop, pc := a.returnTo }
    | none => .error (stuck e)
  | .jump target => .ok (m.goTo target)
  | .jumpIfFalse target => do
    let (value, m) ← m.pop e
    return if value = 0 then m.goTo target else m.next
  | .forTest v exit => do
    let (bound, m) ← m.pop e
    let (value, m) ← m.fetch v e
    return if bound ≤ value then m.goTo exit else m.next
  | .forStep v head => do
    let (value, m) ← m.fetch v e
    return (← m.assign v (some (value + 1)) e).goTo head

def probe (m : Machine) (line : Nat) : Probe :=
  ⟨m.steps, line, m.lastLine != some line, m.calls.size⟩

/-- The place to stop at before the step `e`, if `stop` takes it. -/
def stopAt (stop : Probe → Bool) (m : Machine) (e : Exec) : Option Probe :=
  e.line.bind fun line => if stop (m.probe line) then some (m.probe line) else none

def count (m : Machine) (e : Exec) : Machine :=
  { m with lastLine := e.line.or m.lastLine, steps := m.steps + 1 }

/-- Runs until `stop` takes a probe or the code ends, by at most `fuel` steps out of `limit`. -/
def runFor (p : JumpCode) (readValue : Int32) (stop : Probe → Bool) (limit : Nat) (fuel : Nat)
    (m : Machine) : Except ReplayError (Option Probe × Machine) :=
  match p.code[m.pc]? with
  | none => .ok (none, m)
  | some e =>
    match m.stopAt stop e with
    | some probe => .ok (some probe, m)
    | none =>
      match fuel with
      | 0 => .error (.stepLimit limit)
      | fuel + 1 =>
        match execute p readValue (m.count e) e with
        | .ok m => runFor p readValue stop limit fuel m
        | .error err => .error err

def resume (m : Machine) (p : JumpCode) (config : Config) (stop : Probe → Bool) :
    Except ReplayError (Option Probe × Machine) :=
  runFor p config.readValue stop config.maxSteps (config.maxSteps - m.steps) m

def run (p : JumpCode) (config : Config) (stop : Probe → Bool) :
    Except ReplayError (Option Probe × Machine) :=
  initial.resume p config stop

/-- Stops at the first step on or after a line; without a line, never. -/
def reaches (line : Option Nat) (probe : Probe) : Bool :=
  match line with
  | some line => line ≤ probe.line
  | none => false

end Machine

end PLZero.Replay
