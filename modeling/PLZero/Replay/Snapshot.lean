import PLZero.Instr.Generate
import PLZero.Program.Parse
import PLZero.Replay.Lower
import PLZero.Replay.Machine
import PLZero.Symbol.Analysis
import PLZero.Symbol.Binding

/-! What a replay shows where it stops: every declared binding with its value, the line about to run,
and what was written. -/

namespace PLZero

structure Snapshot where
  bindings : List Binding
  /-- Nothing once the program has ended. -/
  line : Option Nat
  output : List Int32
  deriving DecidableEq, Repr

namespace Snapshot

def value (s : Snapshot) (name : String) : Option Int32 :=
  (s.bindings.find? (·.name == name)).bind (·.value)

def binding (s : Snapshot) (name scope : String) : Option Binding :=
  s.bindings.find? fun b => b.name == name && b.scope == scope

def fields (s : Snapshot) : List (String × Json) :=
  [("variables", .arr (s.bindings.map Binding.json)), ("sourceLine", .ofOption .nat s.line),
    ("output", .arr (s.output.map .word))]

end Snapshot

namespace Replay

structure Prepared where
  code : JumpCode
  symbols : Table

def Prepared.ofSource (source : String) : Except ReplayError Prepared := do
  let program ← (Program.ofSource source).mapError .parse
  let symbols ← program.analyze.mapError .scope
  let code ← (JumpCode.ofCode program.code).mapError .structural
  return ⟨code, symbols⟩

theorem Prepared.ofSource_eq {source : String} {p : Program} {t : Table} {J : JumpCode}
    (hp : Program.ofSource source = .ok p) (ht : p.analyze = .ok t) (hJ : JumpCode.ofCode p.code = .ok J) :
    Prepared.ofSource source = .ok ⟨J, t⟩ := by
  have hprogram : (Program.ofSource source).mapError ReplayError.parse = .ok p := by rw [hp]; rfl
  have hsymbols : p.analyze.mapError ReplayError.scope = .ok t := by rw [ht]; rfl
  have hcode : (JumpCode.ofCode p.code).mapError ReplayError.structural = .ok J := by rw [hJ]; rfl
  simp only [ofSource, hprogram, hsymbols, hcode, bind, Except.bind]
  rfl

/-- The value of a variable of the procedure with this path: that of its latest activation. -/
def Machine.variable (m : Machine) (p : JumpCode) (path : List String) (name : String) : Option Int32 :=
  if path.isEmpty then m.globals.value name
  else do
    let number ← p.number? (dotted path)
    let place ← m.place? (some number)
    (m.store place).value name

def Prepared.snapshot (p : Prepared) (m : Machine) (line : Option Nat) : Snapshot :=
  ⟨p.symbols.bindings fun path name _ => m.variable p.code path name, line, m.output.toList⟩

/-- Replays a program to the first step on or after a line, or to its end. -/
def runTo (source : String) (line : Option Nat) (config : Config) : Except ReplayError Snapshot := do
  let p ← Prepared.ofSource source
  let (stop, m) ← Machine.run p.code config (Machine.reaches line)
  return p.snapshot m (stop.map (·.line))

section

variable {source : String} {q : Prepared} (h : Prepared.ofSource source = .ok q) {line : Option Nat} {config : Config}

include h

theorem runTo_eq_map : runTo source line config = (Machine.run q.code config (Machine.reaches line)).map fun r =>
    q.snapshot r.2 (r.1.map (·.line)) := by
  rw [runTo, h]
  cases hrun : Machine.run q.code config (Machine.reaches line) with
  | ok r => simp only [bind, Except.bind, hrun]; rfl
  | error err => simp only [bind, Except.bind, hrun]; rfl

theorem run_of_runTo_eq_ok {shown : Snapshot} (hrun : runTo source line config = .ok shown) :
    ∃ stop m, Machine.run q.code config (Machine.reaches line) = .ok (stop, m) ∧
      q.snapshot m (stop.map (·.line)) = shown := by
  rw [runTo_eq_map h] at hrun
  cases hstop : Machine.run q.code config (Machine.reaches line) with
  | ok r =>
    rw [hstop] at hrun
    exact ⟨r.1, r.2, rfl, Except.ok.inj hrun⟩
  | error err =>
    rw [hstop] at hrun
    cases hrun

theorem runTo_eq_error_iff {err : ReplayError} :
    runTo source line config = .error err ↔ Machine.run q.code config (Machine.reaches line) = .error err := by
  rw [runTo_eq_map h]
  cases Machine.run q.code config (Machine.reaches line) <;> simp [Except.map]

end

end Replay

end PLZero
