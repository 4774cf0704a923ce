import PLZero.Proofs.Scoped
import PLZero.Proofs.Tracks

/-! Where a step of the replay machine leads. Calls and returns change the activations by one, every other
step goes on inside the procedure that is running. -/

namespace PLZero.Replay

/-- The positions where a procedure can go on behind its step at `i`; behind a call, once the call is over. -/
def Step.successors (i : Nat) : Step → List Nat
  | .jump target => [target]
  | .jumpIfFalse target | .forTest _ target => [target, i + 1]
  | .forStep _ head => [head]
  | .leave => []
  | _ => [i + 1]

/-- Only the evaluation stack and the variables differ. -/
structure Machine.Stays (m m' : Machine) : Prop where
  pc : m'.pc = m.pc
  shape : m'.shape = m.shape
  steps : m'.steps = m.steps
  lastLine : m'.lastLine = m.lastLine
  output : m'.output = m.output

variable {J : JumpCode} {readValue : Int32} {m m' m'' : Machine} {e : Exec}

theorem Machine.Stays.trans (h : m.Stays m') (h' : m'.Stays m'') : m.Stays m'' :=
  ⟨h'.pc.trans h.pc, h'.shape.trans h.shape, h'.steps.trans h.steps, h'.lastLine.trans h.lastLine,
    h'.output.trans h.output⟩

theorem Machine.stays_withStore (m : Machine) (pl : Place) (f : Store → Store) : m.Stays (m.withStore pl f) :=
  ⟨by cases pl <;> rfl, shape_withStore m pl f, by cases pl <;> rfl, by cases pl <;> rfl, by cases pl <;> rfl⟩

theorem stays_of_pop {v : Int32} (h : m.pop e = .ok (v, m')) : m.Stays m' := by
  unfold Machine.pop at h
  split at h
  · cases h
    exact ⟨rfl, rfl, rfl, rfl, rfl⟩
  · cases h

theorem stays_of_fetch {v : VarRef} {w : Int32} (h : m.fetch v e = .ok (w, m')) : m.Stays m' := by
  unfold Machine.fetch at h
  split at h
  · cases h
    exact m.stays_withStore _ _
  · cases h

theorem stays_of_assign {v : VarRef} {value : Option Int32} (h : m.assign v value e = .ok m') : m.Stays m' := by
  unfold Machine.assign at h
  split at h
  · cases h
    exact m.stays_withStore _ _
  · cases h

/-- What a step can do to the position, the activations and the count of steps. -/
def Machine.Moves (J : JumpCode) (m : Machine) (step : Step) (m' : Machine) : Prop :=
  match step with
  | .call n => ∃ q, J.procedures[n]? = some q ∧ m'.pc = q.entry ∧ m'.shape = m.shape ++ [(n, m.pc + 1)]
  | .leave => ∃ a, m.shape = m'.shape ++ [a] ∧ m'.pc = a.2
  | _ => m'.pc ∈ step.successors m.pc ∧ m'.shape = m.shape

theorem shape_of_back {a : Activation} (h : m.calls.back? = some a) :
    m.shape = (m.left a.returnTo).shape ++ [(a.procedure, a.returnTo)] := by
  have hlast : m.shape.getLast? = some (a.procedure, a.returnTo) := by
    simpa [Machine.shape] using congrArg (Option.map fun a => (a.procedure, a.returnTo)) h
  have hleft : (m.left a.returnTo).shape = m.shape.dropLast := by
    simp [Machine.shape, Machine.left]
  obtain ⟨init, hinit⟩ := List.getLast?_eq_some_iff.mp hlast
  rw [hleft, hinit, List.dropLast_concat]

theorem Machine.Stays.output_prefix (h : m.Stays m') : m.output.toList <+: m'.output.toList :=
  h.output ▸ List.prefix_rfl

/-- What a step does: it moves, neither it nor its line is noted a second time, and it writes behind what was written
before. -/
theorem execute_moves (h : Machine.execute J readValue m e = .ok m') :
    m.Moves J e.step m' ∧ m'.steps = m.steps ∧ m'.lastLine = m.lastLine ∧ m.output.toList <+: m'.output.toList := by
  obtain ⟨step, line⟩ := e
  cases step with
  | declare v | const v _ | read v =>
    obtain ⟨m1, h1, h⟩ := ok_of_bind h
    cases h
    have hs := stays_of_assign h1
    exact ⟨⟨by simp [Step.successors, Machine.next, Machine.goTo, hs.pc], hs.shape⟩, hs.steps, hs.lastLine,
      hs.output_prefix⟩
  | load v =>
    obtain ⟨⟨w, m1⟩, h1, h⟩ := ok_of_bind h
    cases h
    have hs := stays_of_fetch h1
    exact ⟨⟨by simp [Step.successors, Machine.next, Machine.goTo, Machine.push, hs.pc], hs.shape⟩, hs.steps, hs.lastLine,
      hs.output_prefix⟩
  | forStep v _ =>
    obtain ⟨⟨w, m1⟩, h1, h⟩ := ok_of_bind h
    obtain ⟨m2, h2, h⟩ := ok_of_bind h
    cases h
    have hs := (stays_of_fetch h1).trans (stays_of_assign h2)
    exact ⟨⟨by simp [Step.successors, Machine.goTo], hs.shape⟩, hs.steps, hs.lastLine,
      hs.output_prefix⟩
  | store v =>
    obtain ⟨⟨w, m1⟩, h1, h⟩ := ok_of_bind h
    obtain ⟨m2, h2, h⟩ := ok_of_bind h
    cases h
    have hs := (stays_of_pop h1).trans (stays_of_assign h2)
    exact ⟨⟨by simp [Step.successors, Machine.next, Machine.goTo, hs.pc], hs.shape⟩, hs.steps, hs.lastLine,
      hs.output_prefix⟩
  | forTest v exit =>
    obtain ⟨⟨w, m1⟩, h1, h⟩ := ok_of_bind h
    obtain ⟨⟨w', m2⟩, h2, h⟩ := ok_of_bind h
    cases h
    have hs := (stays_of_pop h1).trans (stays_of_fetch h2)
    split
    · exact ⟨⟨by simp [Step.successors, Machine.goTo], hs.shape⟩, hs.steps, hs.lastLine,
      hs.output_prefix⟩
    · exact ⟨⟨by simp [Step.successors, Machine.next, Machine.goTo, hs.pc], hs.shape⟩, hs.steps, hs.lastLine,
      hs.output_prefix⟩
  | oper op =>
    obtain ⟨⟨r, m1⟩, h1, h⟩ := ok_of_bind h
    obtain ⟨⟨l, m2⟩, h2, h⟩ := ok_of_bind h
    have hs := (stays_of_pop h1).trans (stays_of_pop h2)
    simp only at h
    split at h
    · cases h
      exact ⟨⟨by simp [Step.successors, Machine.next, Machine.goTo, Machine.push, hs.pc], hs.shape⟩, hs.steps, hs.lastLine,
      hs.output_prefix⟩
    · cases h
  | write =>
    obtain ⟨⟨w, m1⟩, h1, h⟩ := ok_of_bind h
    cases h
    have hs := stays_of_pop h1
    have hout : m1.output.toList <+: (m1.output.push w).toList := by simp
    exact ⟨⟨by simp [Step.successors, Machine.next, Machine.goTo, hs.pc], hs.shape⟩, hs.steps, hs.lastLine,
      hs.output_prefix.trans hout⟩
  | jumpIfFalse _ =>
    obtain ⟨⟨w, m1⟩, h1, h⟩ := ok_of_bind h
    cases h
    have hs := stays_of_pop h1
    split
    · exact ⟨⟨by simp [Step.successors, Machine.goTo], hs.shape⟩, hs.steps, hs.lastLine,
      hs.output_prefix⟩
    · exact ⟨⟨by simp [Step.successors, Machine.next, Machine.goTo, hs.pc], hs.shape⟩, hs.steps, hs.lastLine,
      hs.output_prefix⟩
  | call n =>
    simp only [Machine.execute] at h
    split at h
    · next q hq =>
      cases h
      exact ⟨⟨q, hq, rfl, Machine.shape_entered m n q.entry (m.pc + 1)⟩, rfl, rfl, List.prefix_rfl⟩
    · cases h
  | leave =>
    simp only [Machine.execute] at h
    split at h
    · next a ha =>
      cases h
      exact ⟨⟨_, shape_of_back ha, rfl⟩, rfl, rfl, List.prefix_rfl⟩
    · cases h
  | push _ | jump _ =>
    cases h
    exact ⟨⟨by simp [Step.successors, Machine.next, Machine.goTo, Machine.push], rfl⟩, rfl, rfl, List.prefix_rfl⟩

end PLZero.Replay
