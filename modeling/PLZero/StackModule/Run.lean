import PLZero.StackModule
import PLZero.StackModule.Read
import Std.Data.ExtTreeMap

/-! Running the fields of a stack module by the rules of their instructions. -/

namespace PLZero

namespace Sexp

inductive Ending
  | value (v : Int32)
  | trap
  | invalid
  deriving DecidableEq

def Ending.andThen : Ending → (Int32 → Ending) → Ending
  | .value v, next => next v
  | .trap, _ => .trap
  | .invalid, _ => .invalid

/-- The instructions on two signed numbers. There is no result where an instruction traps; other results
are taken modulo `2 ^ 32`. -/
def instructions : List (String × (Int → Int → Option Int)) :=
  [("i32.add", fun a b => some (a + b)),
   ("i32.sub", fun a b => some (a - b)),
   ("i32.mul", fun a b => some (a * b)),
   -- the quotient is cut off toward zero, and has to be a signed number of 32 bits
   ("i32.div_s", fun a b => if b = 0 ∨ a.tdiv b = 2147483648 then none else some (a.tdiv b)),
   ("i32.lt_s", fun a b => some (if a < b then 1 else 0)),
   ("i32.le_s", fun a b => some (if a ≤ b then 1 else 0)),
   ("i32.eq", fun a b => some (if a = b then 1 else 0)),
   ("i32.ne", fun a b => some (if a ≠ b then 1 else 0)),
   ("i32.gt_s", fun a b => some (if a > b then 1 else 0)),
   ("i32.ge_s", fun a b => some (if a ≥ b then 1 else 0))]

def operate (name : String) (a b : Int32) : Ending :=
  match instructions.lookup name with
  | some f => (f a.toInt b.toInt).elim .trap fun r => .value (.ofInt r)
  | none => .invalid

structure Env where
  globals : String → Int32
  locals : String → Int32
  calls : String → Ending

def eval (env : Env) : Sexp → Ending
  | .list [.word "i32.const", .word n] => (Text.readWord n.toList).elim .invalid .value
  | .list [.word "global.get", .word id] => .value (env.globals id)
  | .list [.word "local.get", .word id] => .value (env.locals id)
  | .list [.word "call", .word id] => env.calls id
  | .list [.word "i32.eqz", x] => (eval env x).andThen (operate "i32.eq" · 0)
  | .list [.word name, x, y] =>
    (eval env x).andThen fun a => (eval env y).andThen fun b => operate name a b
  | _ => .invalid

end Sexp

namespace StackModule

structure State where
  globals : Std.ExtTreeMap String Int32
  /-- The locals of the innermost call. -/
  locals : Std.ExtTreeMap String Int32
  output : Array Int32
  deriving DecidableEq

namespace State

def setGlobal (s : State) (id : String) (v : Int32) : State :=
  { s with globals := s.globals.insert id v }

def setLocal (s : State) (id : String) (v : Int32) : State :=
  { s with locals := s.locals.insert id v }

def write (s : State) (v : Int32) : State := { s with output := s.output.push v }

/-- The locals of a call start at zero. -/
def enter (s : State) (locals : List String) : State :=
  { s with locals := .ofList (locals.map fun id => (id, (0 : Int32))) }

def env (s : State) (calls : String → Sexp.Ending) : Sexp.Env :=
  ⟨(s.globals.getD · 0), (s.locals.getD · 0), calls⟩

end State

inductive Outcome
  | next (s : State)
  | branch (label : String) (s : State)
  | trap
  | invalid
  /-- A loop went around, or calls were nested, more often than was given. -/
  | exhausted
  deriving DecidableEq

@[inline]
def withValue (v : Sexp.Ending) (k : Int32 → Outcome) : Outcome :=
  match v with
  | .value v => k v
  | .trap => .trap
  | .invalid => .invalid

def goAround (label : String) (body : State → Outcome) : Nat → State → Outcome
  | 0, _ => .exhausted
  | n + 1, s =>
    match body s with
    | .branch l s => if l = label then goAround label body n s else .branch l s
    | o => o

namespace Outcome

/-- Behind a block, where branches to its label lead. -/
def leaving (label : String) : Outcome → Outcome
  | .branch l s => if l = label then .next s else .branch l s
  | o => o

/-- Behind a call made in the state `s`, which has its locals again. -/
def returning (s : State) : Outcome → Outcome
  | .next s' => .next { s' with locals := s.locals }
  | .branch .. => .invalid
  | o => o

end Outcome

/-- What calls do: as expressions, and as instructions with their arguments. -/
structure Calls where
  value : String → Sexp.Ending
  run : String → List Int32 → State → Outcome

section

variable (c : Calls) (turns : Nat)

mutual

def exec : Sexp → State → Outcome
  | .list [.word "global.set", .word id, x], s =>
    withValue (x.eval (s.env c.value)) fun v => .next (s.setGlobal id v)
  | .list [.word "local.set", .word id, x], s =>
    withValue (x.eval (s.env c.value)) fun v => .next (s.setLocal id v)
  | .list [.word "call", .word id], s => c.run id [] s
  | .list [.word "call", .word id, x], s =>
    withValue (x.eval (s.env c.value)) fun v => c.run id [v] s
  | .list [.word "if", x, .list (.word "then" :: body)], s =>
    withValue (x.eval (s.env c.value)) fun v => if v ≠ 0 then execAll body s else .next s
  | .list [.word "if", x, .list (.word "then" :: body), .list (.word "else" :: other)], s =>
    withValue (x.eval (s.env c.value)) fun v => if v ≠ 0 then execAll body s else execAll other s
  | .list (.word "block" :: .word label :: body), s => (execAll body s).leaving label
  | .list (.word "loop" :: .word label :: body), s =>
    goAround label (fun s => execAll body s) turns s
  | .list [.word "br", .word label], s => .branch label s
  | .list [.word "br_if", .word label, x], s =>
    withValue (x.eval (s.env c.value)) fun v => if v ≠ 0 then .branch label s else .next s
  | _, _ => .invalid

def execAll : List Sexp → State → Outcome
  | [], s => .next s
  | x :: rest, s =>
    match exec x s with
    | .next s => execAll rest s
    | o => o

end

end

/-- A function as a module has it: one of the host, or its own. -/
inductive Callee
  | read
  | write
  | function (locals : List String) (body : List Sexp)

def callee? : Field → Option (String × Callee)
  | .imported source name id _ _ =>
    if (source, name) = (Hook.read.source, Hook.read.name) then some (id, .read)
    else if (source, name) = (Hook.write.source, Hook.write.name) then some (id, .write)
    else none
  | .function id _ locals body => some (id, .function locals body)
  | .global .. => none

structure Meter (ρ : Type) where
  start : ρ
  /-- What is left in a call of a function, if it can be made. -/
  enter : String → ρ → Option ρ

def Meter.unlimited : Meter Unit := ⟨(), fun _ _ => some ()⟩

section

variable {ρ : Type} (callees : List (String × Callee)) (meter : Meter ρ) (readValue : Int32)

/-- The calls that code with a rest `r` of the budget can make, given what a function does. -/
def calls (r : ρ) (function : ρ → List String → List Sexp → State → Outcome) : Calls where
  value id :=
    match callees.lookup id with
    | some .read => (meter.enter id r).elim .trap fun _ => .value readValue
    | _ => .invalid
  run id args s :=
    match callees.lookup id, args with
    | some .write, [v] => (meter.enter id r).elim .trap fun _ => .next (s.write v)
    | some (.function locals body), [] =>
      (meter.enter id r).elim .trap fun r => function r locals body s
    | _, _ => .invalid

/-- A function of the module, while at most `depth` calls, this one included, may be open. -/
def callFunction (turns : Nat) :
    (depth : Nat) → ρ → List String → List Sexp → State → Outcome
  | 0, _, _, _, _ => .exhausted
  | depth + 1, r, locals, body, s =>
    (execAll (calls callees meter readValue r (callFunction turns depth)) turns body
      (s.enter locals)).returning s

end

def cell? : Field → Option (String × Int32)
  | .global id _ _ x =>
    match x.eval ⟨fun _ => 0, fun _ => 0, fun _ => .invalid⟩ with
    | .value v => some (id, v)
    | _ => none
  | _ => none

def initialState (fields : List Field) : State := ⟨.ofList (fields.filterMap cell?), ∅, #[]⟩

def entry? : Field → Option (String × List String × List Sexp)
  | .function id exports locals body =>
    if entryExport ∈ exports then some (id, locals, body) else none
  | _ => none

def run {ρ : Type} (fields : List Field) (meter : Meter ρ) (readValue : Int32) (turns depth : Nat) :
    Outcome :=
  match fields.findSome? entry? with
  | some (id, locals, body) =>
    (meter.enter id meter.start).elim .trap fun r =>
      callFunction (fields.filterMap callee?) meter readValue turns (depth + 1) r locals body
        (initialState fields)
  | none => .invalid

end StackModule

end PLZero
