import PLZero.Proofs.ReplayRun
import PLZero.Proofs.StepLimit

/-! A replay never meets malformed code. In every state that the machine can reach from the start, the step
to come finds all it needs; calls and returns find the evaluation stack empty; and the code ends only with
nothing left on the stack and no procedure active. -/

namespace PLZero

open Meaning Replay

namespace Replay

variable {e : Exec}

/-- States that the machine can come to, step by step. -/
inductive Reachable (J : JumpCode) (readValue : Int32) : Machine → Prop
  | initial : Reachable J readValue .initial
  | step {m m' : Machine} {e : Exec} (h : Reachable J readValue m) (he : J.code[m.pc]? = some e)
    (hm : Machine.execute J readValue (m.count e) e = .ok m') : Reachable J readValue m'

/-- The step `e` finds all it needs: values on the evaluation stack, an active owner for its variable, an
entry for a call, an activation for a return. -/
def Supplied (J : JumpCode) (m : Machine) (e : Exec) : Prop :=
  match e.step with
  | .declare v | .const v _ | .load v | .read v | .forStep v _ => m.place? v.owner ≠ none
  | .store v | .forTest v _ => m.stack ≠ [] ∧ m.place? v.owner ≠ none
  | .oper _ => 2 ≤ m.stack.length
  | .write | .jumpIfFalse _ => m.stack ≠ []
  | .call n => J.procedures[n]? ≠ none ∧ m.stack = []
  | .leave => m.calls ≠ #[] ∧ m.stack = []
  | .push _ | .jump _ => True

variable {operate operate' : BinOp → Int32 → Int32 → Option Int32} {J : JumpCode} {readValue : Int32}
  {m m' m0 : Machine} {n n' : Nat}

theorem Steps.rest (h : Steps operate J readValue n m0 m) (h' : Steps operate' J readValue n' m0 m')
    (hle : n ≤ n') : Steps operate' J readValue (n' - n) m m' := by
  induction h generalizing n' with
  | refl => exact h'
  | cons ha _ ih =>
    cases h' with
    | refl => exact absurd hle (Nat.not_succ_le_zero _)
    | cons ha' hs' =>
      obtain rfl := ha.unique ha'
      rw [Nat.add_sub_add_right]
      exact ih hs' (Nat.le_of_succ_le_succ hle)

theorem Steps.head (h : Steps operate J readValue n m m') :
    (∃ a, Advances operate J readValue m a) ∨ n = 0 ∧ m = m' := by
  cases h with
  | refl => exact .inr ⟨rfl, rfl⟩
  | cons ha _ => exact .inl ⟨_, ha⟩

/-- A run that has not come to the end of another one can go on. -/
theorem Steps.advances_or_eq (h : Steps operate J readValue n m0 m) (h' : Steps operate' J readValue n' m0 m')
    (hend : ∀ a, ¬ Advances operate J readValue m' a) : (∃ a, Advances operate' J readValue m a) ∨ m = m' := by
  rcases Nat.le_total n n' with hle | hle
  · exact (h.rest h' hle).head.imp_right fun heq => heq.2
  · rcases (h'.rest h hle).head with ⟨a, ha⟩ | heq
    · exact absurd ha (hend a)
    · exact .inr heq.2.symm

theorem pop_ok {v : Int32} (h : m.pop e = .ok (v, m')) :
    m.stack = v :: m'.stack ∧ (∀ o, m'.place? o = m.place? o) ∧ m'.steps = m.steps := by
  simp only [Machine.pop] at h
  split at h
  · next hst =>
    cases h
    exact ⟨hst, fun o => rfl, rfl⟩
  · cases h

theorem fetch_ok {v : VarRef} {w : Int32} (h : m.fetch v e = .ok (w, m')) :
    m.place? v.owner ≠ none ∧ m'.steps = m.steps := by
  simp only [Machine.fetch] at h
  split at h
  · next pl hp =>
    cases h
    exact ⟨by simp [hp], by cases pl <;> rfl⟩
  · cases h

theorem assign_ok {v : VarRef} {value : Option Int32} (h : m.assign v value e = .ok m') :
    m.place? v.owner ≠ none ∧ m'.steps = m.steps := by
  simp only [Machine.assign] at h
  split at h
  · next pl hp =>
    cases h
    exact ⟨by simp [hp], by cases pl <;> rfl⟩
  · cases h

/-- A step that succeeds found all it needs; only `count` counts it. -/
theorem execute_ok (ho : Orderly operate m e) (h : Machine.execute J readValue m e = .ok m') :
    Supplied J m e ∧ m'.steps = m.steps := by
  obtain ⟨step, line⟩ := e
  cases step with
  | declare v | const v _ | read v =>
    obtain ⟨m1, h1, h⟩ := ok_of_bind h
    cases h
    obtain ⟨hp, hn⟩ := assign_ok h1
    exact ⟨hp, hn⟩
  | load v =>
    obtain ⟨⟨w, m1⟩, h1, h⟩ := ok_of_bind h
    cases h
    obtain ⟨hp, hn⟩ := fetch_ok h1
    exact ⟨hp, hn⟩
  | forStep v _ =>
    obtain ⟨⟨w, m1⟩, h1, h⟩ := ok_of_bind h
    obtain ⟨m2, h2, h⟩ := ok_of_bind h
    cases h
    obtain ⟨hp, hn⟩ := fetch_ok h1
    exact ⟨hp, (assign_ok h2).2.trans hn⟩
  | store v =>
    obtain ⟨⟨w, m1⟩, h1, h⟩ := ok_of_bind h
    obtain ⟨m2, h2, h⟩ := ok_of_bind h
    cases h
    obtain ⟨hst, hpl, hn⟩ := pop_ok h1
    obtain ⟨hp, hn2⟩ := assign_ok h2
    exact ⟨⟨by simp [hst], hpl v.owner ▸ hp⟩, hn2.trans hn⟩
  | forTest v exit =>
    obtain ⟨⟨w, m1⟩, h1, h⟩ := ok_of_bind h
    obtain ⟨⟨w', m2⟩, h2, h⟩ := ok_of_bind h
    cases h
    obtain ⟨hst, hpl, hn⟩ := pop_ok h1
    obtain ⟨hp, hn2⟩ := fetch_ok h2
    refine ⟨⟨by simp [hst], hpl v.owner ▸ hp⟩, ?_⟩
    split
    · exact hn2.trans hn
    · exact hn2.trans hn
  | oper op =>
    obtain ⟨⟨r, m1⟩, h1, h⟩ := ok_of_bind h
    obtain ⟨⟨l, m2⟩, h2, h⟩ := ok_of_bind h
    obtain ⟨hst, -, hn⟩ := pop_ok h1
    obtain ⟨hst2, -, hn2⟩ := pop_ok h2
    refine ⟨by simp [Supplied, hst, hst2], ?_⟩
    simp only at h
    split at h
    · cases h
      exact hn2.trans hn
    · cases h
  | write =>
    obtain ⟨⟨w, m1⟩, h1, h⟩ := ok_of_bind h
    cases h
    obtain ⟨hst, -, hn⟩ := pop_ok h1
    exact ⟨by simp [Supplied, hst], hn⟩
  | jumpIfFalse _ =>
    obtain ⟨⟨w, m1⟩, h1, h⟩ := ok_of_bind h
    cases h
    obtain ⟨hst, -, hn⟩ := pop_ok h1
    refine ⟨by simp [Supplied, hst], ?_⟩
    split
    · exact hn
    · exact hn
  | call n =>
    simp only [Machine.execute] at h
    split at h
    · next q hq =>
      cases h
      exact ⟨⟨by simp [hq], ho⟩, rfl⟩
    · cases h
  | leave =>
    simp only [Machine.execute] at h
    split at h
    · next a ha =>
      cases h
      exact ⟨⟨fun hempty => by simp [hempty] at ha, ho⟩, rfl⟩
    · cases h
  | push _ | jump _ =>
    cases h
    exact ⟨trivial, rfl⟩

theorem Faults.supplied {line : Nat} (h : Faults operate J line m) :
    ∃ e, J.code[m.pc]? = some e ∧ Supplied J m e := by
  obtain ⟨op, right, left, rest, he, hst, -⟩ := h
  exact ⟨_, he, by simp [Supplied, hst]⟩

/-- A run from a state that can be reached stays among such states. -/
theorem Reachable.runFor_ok {stop : Probe → Bool} {limit fuel : Nat} {probe : Option Probe}
    (hm : Reachable J readValue m) (h : Machine.runFor J readValue stop limit fuel m = .ok (probe, m')) :
    Reachable J readValue m' ∧ (probe = none → J.code[m'.pc]? = none) := by
  obtain ⟨n, -, hends⟩ := ends_of_runFor h nofun
  clear h
  generalize hr : Except.ok (probe, m') = r at hends
  induction hends with
  | finished hend =>
    cases hr
    exact ⟨hm, fun _ => hend⟩
  | stopped =>
    cases hr
    exact ⟨hm, nofun⟩
  | failed => cases hr
  | step he _ hstep _ ih => exact ih (hm.step he hstep) hr

/-- It fails for want of steps, or because a step fails in one of these states. -/
theorem Reachable.runFor_error {stop : Probe → Bool} {limit fuel : Nat} {err : ReplayError}
    (hm : Reachable J readValue m) (h : Machine.runFor J readValue stop limit fuel m = .error err) :
    err = .stepLimit limit ∨ ∃ m' e, Reachable J readValue m' ∧ J.code[m'.pc]? = some e ∧
      Machine.execute J readValue (m'.count e) e = .error err := by
  by_cases hlimit : err = .stepLimit limit
  · exact .inl hlimit
  obtain ⟨n, -, hends⟩ := ends_of_runFor h fun heq => hlimit (Except.error.inj heq)
  clear h
  generalize hr : Except.error err = r at hends
  induction hends with
  | finished | stopped => cases hr
  | @failed m e _ he _ hfail =>
    cases hr
    exact .inr ⟨m, e, hm, he, hfail⟩
  | step he _ hstep _ ih => exact ih (hm.step he hstep) hr

end Replay

namespace Program

variable {p : Program} {J : JumpCode} {readValue : Int32} {m : Machine}

section

variable (h : p.Scoped) (hat : Block.AtAll J (procedurePaths p.declared) [] .initial p.blocks 0 J.code.size)

include h hat

/-- With any arithmetic that is sound, the machine goes on unless the program has ended or has come to an
operation without result. -/
theorem progress {operate : BinOp → Int32 → Int32 → Option Int32} (hop : Sound operate)
    {n fuel : Nat} (hs : Steps BinOp.apply J readValue n .initial m) (hfuel : n < fuel) :
    (∃ m', Advances operate J readValue m m') ∨ (∃ s, Ended J s m) ∨
      ∃ line n' m', p.exec operate readValue fuel = .fault (.division line) ∧ n' ≤ n ∧
        Steps operate J readValue n' .initial m' ∧ Faults operate J line m' := by
  -- with more fuel than steps, a meaning that is cut off is that of a longer run
  have hmeets := p.meets hop h hat readValue fuel
  revert hmeets
  cases p.exec operate readValue fuel with
  | done s =>
    rintro ⟨n', m', hs', hm'⟩
    rcases hs.advances_or_eq hs' hm'.stops with ha | rfl
    · exact .inl ha
    · exact .inr (.inl ⟨s, hm'⟩)
  | fault f =>
    cases f with
    | division line =>
      rintro ⟨n', m', hs', hm'⟩
      rcases Nat.lt_or_ge n n' with hlt | hge
      · exact .inl ((hs.rest hs' hlt.le).head.resolve_right (by omega))
      · exact .inr (.inr ⟨line, n', m', rfl, hge, hs', hm'⟩)
    | undeclared name => exact False.elim
  | exhausted =>
    rintro ⟨n', m', hn', hs'⟩
    exact .inl ((hs.rest hs' (hfuel.le.trans hn')).head.resolve_right (by omega))

theorem progress_apply {n : Nat} (hs : Steps BinOp.apply J readValue n .initial m) :
    (∃ m', Advances BinOp.apply J readValue m m') ∨ (∃ s, Ended J s m) ∨ ∃ line, Faults BinOp.apply J line m := by
  rcases progress h hat .apply hs n.lt_succ_self with ha | hend | ⟨line, n', m', -, hn, hs', hf⟩
  · exact .inl ha
  · exact .inr (.inl hend)
  · rcases (hs'.rest hs hn).head with ⟨a, ha⟩ | ⟨-, rfl⟩
    · exact absurd ha (hf.stops a)
    · exact .inr (.inr ⟨line, hf⟩)

/-- Only orderly steps lead to the states that can be reached. -/
theorem steps_of_reachable (hm : Reachable J readValue m) : ∃ n, Steps BinOp.apply J readValue n .initial m := by
  induction hm with
  | initial => exact ⟨0, .refl _⟩
  | @step m m' e _ he hm ih =>
    obtain ⟨n, hs⟩ := ih
    rcases progress_apply h hat hs with ⟨m1, ha⟩ | ⟨s, hend⟩ | ⟨line, hf⟩
    · obtain ⟨e', he', ho, hm1⟩ := ha
      obtain rfl := Option.some.inj (he.symm.trans he')
      exact ⟨n + 1, hs.trans (.cons ⟨e, he, ho, hm⟩ (.refl m'))⟩
    · rw [hend.code_eq_none] at he
      cases he
    · rw [hf.execute he] at hm
      cases hm

/-- At the end of the code the program has ended; before it, the step to come has what it needs, and fails
only as a division by zero. -/
theorem reachable_cases (hm : Reachable J readValue m) :
    (∃ s, Ended J s m) ∨ ∃ e, J.code[m.pc]? = some e ∧ Supplied J m e ∧
      ∀ err, Machine.execute J readValue (m.count e) e = .error err → ∃ line, err = .divisionByZero line := by
  obtain ⟨n, hs⟩ := steps_of_reachable h hat hm
  rcases progress_apply h hat hs with ⟨m', e, he, ho, hok⟩ | hend | ⟨line, hf⟩
  · exact .inr ⟨e, he, (execute_ok (m := m.count e) ho hok).1, fun err herr => by cases hok.symm.trans herr⟩
  · exact .inl hend
  · obtain ⟨e, he, hsup⟩ := hf.supplied
    exact .inr ⟨e, he, hsup, fun err herr => by cases (hf.execute he).symm.trans herr; exact ⟨line, rfl⟩⟩

end

/-- No state that a replay of a program read from source text can reach makes the replay fail for the form
of its code, and a replay that comes to the end leaves nothing behind. -/
theorem replay_well_formed {source : String} {t : Table} (hp : Program.ofSource source = .ok p)
    (ht : p.analyze = .ok t) :
    ∃ J, JumpCode.ofCode p.code = .ok J ∧ ∀ config m, Reachable J config.readValue m →
      (∀ e, J.code[m.pc]? = some e → Supplied J m e) ∧
      ∀ stop, (∀ e, m.resume J config stop ≠ .error (.structural e)) ∧
        ∀ m', m.resume J config stop = .ok (none, m') →
          m'.pc = J.code.size ∧ m'.stack = [] ∧ m'.calls = #[] := by
  have h := Program.scoped_of_source hp ht
  obtain ⟨J, hJ, hat⟩ := p.lowers h
  refine ⟨J, hJ, fun config m hm => ⟨fun e he => ?_, fun stop => ⟨fun err herr => ?_, fun m' hrun => ?_⟩⟩⟩
  · rcases reachable_cases h hat hm with ⟨s, hend⟩ | ⟨e', he', hsup, -⟩
    · rw [hend.code_eq_none] at he
      cases he
    · exact Option.some.inj (he.symm.trans he') ▸ hsup
  · rcases hm.runFor_error herr with hlimit | ⟨m', e, hm', he, hfail⟩
    · cases hlimit
    · rcases reachable_cases h hat hm' with ⟨s, hend⟩ | ⟨e', he', -, hdiv⟩
      · rw [hend.code_eq_none] at he
        cases he
      · obtain rfl := Option.some.inj (he.symm.trans he')
        obtain ⟨line, hline⟩ := hdiv _ hfail
        cases hline
  · obtain ⟨hm', hcode⟩ := hm.runFor_ok hrun
    rcases reachable_cases h hat hm' with ⟨s, hend⟩ | ⟨e, he, -⟩
    · exact ⟨hend.pc, hend.stack, hend.calls⟩
    · rw [hcode rfl] at he
      cases he

/-- A program with a procedure, replayed with any limit and any stops. -/
theorem replay_well_formed_call : ∃ p t J,
    Program.ofSource "var x; procedure half; x := x / 2; read x; half; write x;" = .ok p ∧
      p.analyze = .ok t ∧ JumpCode.ofCode p.code = .ok J ∧
      ∀ config stop e, Machine.run J config stop ≠ .error (.structural e) := by
  obtain ⟨p, t, hp, ht⟩ : ∃ p t,
      Program.ofSource "var x; procedure half; x := x / 2; read x; half; write x;" = .ok p ∧
        p.analyze = .ok t := ⟨_, _, rfl, rfl⟩
  obtain ⟨J, hJ, hsafe⟩ := replay_well_formed hp ht
  exact ⟨p, t, J, hp, ht, hJ, fun config stop => ((hsafe config .initial .initial).2 stop).1⟩

end Program

end PLZero
