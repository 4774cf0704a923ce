import PLZero.Compile.BuildError
import PLZero.Instr.Generate
import PLZero.Program.Parse
import PLZero.Symbol.Analysis
import PLZero.Target

/-! Target text straight from source text: all or nothing. -/

namespace PLZero

/-- A value, and the lines that verbose work on it reports. -/
structure Traced (α : Type) where
  value : α
  trace : List String

def Target.lower (target : Target) (code : List Instr) : Traced (Except CodeError String) :=
  let line := s!"compile: lowering {code.length} instructions with the {target.name} backend"
  match target.render code with
  | .ok (text, trace) => ⟨.ok text, line :: trace⟩
  | .error e => ⟨.error e, [line]⟩

def sourceCode (source : String) : Except BuildError (List Instr) := do
  let program ← (Program.ofSource source).mapError .parse
  discard (program.analyze.mapError .scope)
  return program.code

def Target.build (target : Target) (source : String) : Traced (Except BuildError String) :=
  let scanned := (Scan.ofSource source).trace
  match sourceCode source with
  | .ok code =>
    let lowered := target.lower code
    ⟨lowered.value.mapError .code, scanned ++ lowered.trace⟩
  | .error e => ⟨.error e, scanned⟩

end PLZero
