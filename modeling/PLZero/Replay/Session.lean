import PLZero.Replay.Snapshot

/-! Debug sessions. A session is a place in the one run of its program: every command goes on from there
and stops at the first probe that it asks for. -/

namespace PLZero

namespace Replay

inductive Status
  | running | paused | finished
  deriving DecidableEq, Repr

def Status.text : Status → String
  | .running => "running"
  | .paused => "paused"
  | .finished => "finished"

inductive Event
  | paused (s : Snapshot)
  | finished (s : Snapshot)
  deriving DecidableEq, Repr

namespace Event

def snapshot : Event → Snapshot
  | paused s => s
  | finished s => s

def isFinished : Event → Bool
  | paused _ => false
  | finished _ => true

def name : Event → String
  | paused _ => "paused"
  | finished _ => "finished"

def json (e : Event) : Json := .obj (("event", .str e.name) :: e.snapshot.fields)

end Event

structure Pause where
  steps : Nat
  depth : Nat
  deriving DecidableEq, Repr

structure Session where
  program : Prepared
  breakpoints : List Nat
  config : Config
  status : Status
  pausedAt : Option Pause
  machine : Machine
  current : Snapshot

inductive Command
  /-- To the next entry into a breakpoint line. -/
  | continue
  /-- To the next line entered while no more procedures are active than now. -/
  | stepOver
  deriving DecidableEq, Repr

structure Reply where
  session : Session
  result : Except ReplayError Event
  trace : List String

def insertSorted (n : Nat) : List Nat → List Nat
  | [] => [n]
  | m :: rest => if n < m then n :: m :: rest else if n = m then m :: rest else m :: insertSorted n rest

def sortedSet (ns : List Nat) : List Nat := ns.foldr insertSorted []

namespace Session

/-- A requested line that holds no step moves to the next one that does, or is dropped. -/
def snap (lines requested : List Nat) : List Nat :=
  sortedSet (requested.filterMap fun line => (sortedSet lines).find? (line ≤ ·))

/-- Nothing runs before the first command. -/
def start (source : String) (requested : List Nat) (config : Config) : Except ReplayError Session := do
  let program ← Prepared.ofSource source
  return {
    program
    breakpoints := snap program.code.lines requested
    config
    status := .running
    pausedAt := none
    machine := .initial
    current := ⟨program.symbols.unassigned, none, []⟩ }

def wants (s : Session) : Command → Probe → Bool
  | .continue, probe =>
    probe.boundary && probe.line ∈ s.breakpoints && s.pausedAt.all (·.steps < probe.steps)
  | .stepOver, probe =>
    s.pausedAt.all fun pause =>
      probe.boundary && pause.steps < probe.steps && probe.depth ≤ pause.depth

def pause (s : Session) (m : Machine) (probe : Probe) : Reply :=
  let current := s.program.snapshot m (some probe.line)
  { session := { s with status := .paused, pausedAt := some ⟨probe.steps, probe.depth⟩, machine := m, current }
    result := .ok (.paused current)
    trace := [s!"debugger: paused at line {probe.line} after {probe.steps} steps"] }

def finish (s : Session) (m : Machine) : Reply :=
  let current := s.program.snapshot m none
  { session := { s with status := .finished, pausedAt := none, machine := m, current }
    result := .ok (.finished current)
    trace := [s!"debugger: program finished after {m.steps} steps"] }

def command (s : Session) (c : Command) : Reply :=
  if s.status = .finished then ⟨s, .ok (.finished s.current), []⟩
  else match s.machine.resume s.program.code s.config (s.wants c) with
    | .ok (some probe, m) => s.pause m probe
    | .ok (none, m) => s.finish m
    | .error e => ⟨{ s with status := .finished }, .error e, []⟩

end Session

end Replay

end PLZero
