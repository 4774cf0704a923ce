import PLZero.Proofs.Moves

/-! Runs without a limit, and what a limit makes of them. A run with a limit gives the result of the run without one
where the steps of that run are within the limit, and fails for want of steps where they are not. -/

namespace PLZero.Replay

section

variable (J : JumpCode) (readValue : Int32) (stop : Probe → Bool)

/-- Without any limit, the run from `m` comes to the result `r` by `n` steps. A step that fails is one of them, the
step in front of which the run stops is not. -/
inductive Ends : Machine → Nat → Except ReplayError (Option Probe × Machine) → Prop
  | finished {m : Machine} (hend : J.code[m.pc]? = none) : Ends m 0 (.ok (none, m))
  | stopped {m : Machine} {e : Exec} {probe : Probe} (he : J.code[m.pc]? = some e)
    (hstop : m.stopAt stop e = some probe) : Ends m 0 (.ok (some probe, m))
  | failed {m : Machine} {e : Exec} {err : ReplayError} (he : J.code[m.pc]? = some e)
    (hgo : m.stopAt stop e = none) (hfail : Machine.execute J readValue (m.count e) e = .error err) :
    Ends m 1 (.error err)
  | step {m m' : Machine} {e : Exec} {n : Nat} {r : Except ReplayError (Option Probe × Machine)}
    (he : J.code[m.pc]? = some e) (hgo : m.stopAt stop e = none)
    (hstep : Machine.execute J readValue (m.count e) e = .ok m') (h : Ends m' n r) : Ends m (n + 1) r

end

variable {J : JumpCode} {readValue : Int32} {stop : Probe → Bool} {m m' : Machine} {n n' : Nat} {e : Exec}
  {r r' : Except ReplayError (Option Probe × Machine)} {err : ReplayError}

theorem runFor_zero (he : J.code[m.pc]? = some e) (hgo : m.stopAt stop e = none) (limit : Nat) :
    Machine.runFor J readValue stop limit 0 m = .error (.stepLimit limit) := by
  rw [Machine.runFor.eq_def, he]
  simp only [hgo]

theorem runFor_succ (he : J.code[m.pc]? = some e) (hgo : m.stopAt stop e = none) (limit fuel : Nat) :
    Machine.runFor J readValue stop limit (fuel + 1) m =
      Machine.execute J readValue (m.count e) e >>= Machine.runFor J readValue stop limit fuel := by
  rw [Machine.runFor.eq_def, he]
  simp only [hgo]
  cases Machine.execute J readValue (m.count e) e with
  | ok m' => rfl
  | error err => rfl

/-- A run with fuel for `n` steps at least has the result of the run without a limit. -/
theorem Ends.runFor (h : Ends J readValue stop m n r) (limit fuel : Nat) :
    Machine.runFor J readValue stop limit fuel m = if n ≤ fuel then r else .error (.stepLimit limit) := by
  induction h generalizing fuel with
  | finished hend =>
    rw [Machine.runFor.eq_def, hend]
    rfl
  | stopped he hstop =>
    rw [Machine.runFor.eq_def, he]
    simp only [hstop, Nat.zero_le, if_true]
  | failed he hgo hfail =>
    cases fuel with
    | zero => rw [runFor_zero he hgo, if_neg (Nat.not_succ_le_zero 0)]
    | succ fuel =>
      rw [runFor_succ he hgo, hfail, if_pos (Nat.le_add_left 1 fuel)]
      rfl
  | @step _ m' _ n r he hgo hstep _ ih =>
    cases fuel with
    | zero => rw [runFor_zero he hgo, if_neg (Nat.not_succ_le_zero n)]
    | succ fuel =>
      have hrest : (Except.ok m' >>= Machine.runFor J readValue stop limit fuel) =
        if n ≤ fuel then r else .error (.stepLimit limit) := ih fuel
      rw [runFor_succ he hgo, hstep, hrest]
      simp only [Nat.add_le_add_iff_right]

/-- A run has come to its end, or is to execute a step. -/
theorem ends_or_goes (J : JumpCode) (readValue : Int32) (stop : Probe → Bool) (m : Machine) :
    (∃ r, Ends J readValue stop m 0 r) ∨ ∃ e, J.code[m.pc]? = some e ∧ m.stopAt stop e = none := by
  cases he : J.code[m.pc]? with
  | none => exact .inl ⟨_, .finished he⟩
  | some e =>
    cases hstop : m.stopAt stop e with
    | some probe => exact .inl ⟨_, .stopped he hstop⟩
    | none => exact .inr ⟨e, rfl, hstop⟩

/-- A run that does not want for steps has come to its end within its fuel. -/
theorem ends_of_runFor {limit fuel : Nat} (h : Machine.runFor J readValue stop limit fuel m = r)
    (hr : r ≠ .error (.stepLimit limit)) : ∃ n ≤ fuel, Ends J readValue stop m n r := by
  induction fuel using Nat.strong_induction_on generalizing m with
  | _ fuel ih =>
    rcases ends_or_goes J readValue stop m with ⟨r₀, h₀⟩ | ⟨e, he, hgo⟩
    · rw [h₀.runFor, if_pos (Nat.zero_le fuel)] at h
      exact ⟨0, Nat.zero_le fuel, h ▸ h₀⟩
    cases fuel with
    | zero =>
      rw [runFor_zero he hgo] at h
      exact absurd h.symm hr
    | succ fuel =>
      rw [runFor_succ he hgo] at h
      cases hstep : Machine.execute J readValue (m.count e) e with
      | error err =>
        rw [hstep] at h
        exact ⟨1, Nat.le_add_left 1 fuel, h ▸ .failed he hgo hstep⟩
      | ok m' =>
        rw [hstep] at h
        obtain ⟨n, hn, hends⟩ := ih fuel (Nat.lt_succ_self fuel) h
        exact ⟨n + 1, Nat.succ_le_succ hn, .step he hgo hstep hends⟩

/-- No run without a limit is shorter than another from the same state. -/
theorem Ends.le (h : Ends J readValue stop m n r) (h' : Ends J readValue stop m n' r') : n' ≤ n := by
  by_contra hlt
  -- with fuel for the shorter one only, the result would tell any two limits apart
  have hlimit (limit : Nat) : r = .error (.stepLimit limit) := by
    have hlong := h'.runFor limit n
    rw [h.runFor limit n, if_pos (Nat.le_refl n), if_neg hlt] at hlong
    exact hlong
  cases (hlimit 0).symm.trans (hlimit 1)

/-- The run without a limit has one result and one number of steps. -/
theorem Ends.unique (h : Ends J readValue stop m n r) (h' : Ends J readValue stop m n' r') : n' = n ∧ r' = r := by
  obtain rfl := Nat.le_antisymm (h.le h') (h'.le h)
  have hresult := h'.runFor 0 n'
  rw [h.runFor 0 n', if_pos (Nat.le_refl n'), if_pos (Nat.le_refl n')] at hresult
  exact ⟨rfl, hresult.symm⟩

theorem Ends.steps_eq {probe : Option Probe} (h : Ends J readValue stop m n (.ok (probe, m'))) :
    m'.steps = m.steps + n := by
  generalize hr : Except.ok (probe, m') = r at h
  induction h with
  | finished | stopped =>
    cases hr
    rfl
  | failed => cases hr
  | @step _ _ _ n _ _ _ hstep _ ih =>
    rw [ih hr, (execute_moves hstep).2.1, Nat.add_comm n, ← Nat.add_assoc]
    rfl

theorem Ends.output_prefix {probe : Option Probe} (h : Ends J readValue stop m n (.ok (probe, m'))) :
    m.output.toList <+: m'.output.toList := by
  generalize hr : Except.ok (probe, m') = r at h
  induction h with
  | finished | stopped =>
    cases hr
    exact List.prefix_rfl
  | failed => cases hr
  | @step m _ e _ _ _ _ hstep _ ih =>
    have hout : (m.count e).output.toList <+: _ := (execute_moves hstep).2.2.2
    exact hout.trans (ih hr)

theorem stopAt_eq_some_iff {probe : Probe} :
    m.stopAt stop e = some probe ↔ ∃ line, e.line = some line ∧ probe = m.probe line ∧ stop probe = true := by
  rw [Machine.stopAt, Option.bind_eq_some_iff]
  refine exists_congr fun line => and_congr_right fun _ => ?_
  constructor
  · intro h
    split at h
    · next hstop =>
      cases h
      exact ⟨rfl, hstop⟩
    · cases h
  · rintro ⟨rfl, hstop⟩
    rw [if_pos hstop]

/-- Where a run stops, a step with a line is to come, and its probe is wanted. -/
theorem Ends.stopped_before {probe : Probe} (h : Ends J readValue stop m n (.ok (some probe, m'))) :
    ∃ e line, J.code[m'.pc]? = some e ∧ e.line = some line ∧ probe = m'.probe line ∧ stop probe = true := by
  generalize hr : Except.ok (some probe, m') = r at h
  induction h with
  | finished | failed => cases hr
  | @stopped _ e _ he hstop =>
    cases hr
    obtain ⟨line, hline, hprobe⟩ := stopAt_eq_some_iff.mp hstop
    exact ⟨e, line, he, hline, hprobe⟩
  | step _ _ _ _ ih => exact ih hr

theorem bind_ne_error {ε α β : Type} {x : Except ε α} {f : α → Except ε β} {err : ε} (hx : x ≠ .error err)
    (hf : ∀ a, f a ≠ .error err) : (x >>= f) ≠ .error err := by
  cases x with
  | error e => exact fun h => hx (congrArg Except.error (Except.error.inj h))
  | ok a => exact hf a

/-- A step does not fail for want of steps. -/
theorem execute_ne_stepLimit (J : JumpCode) (readValue : Int32) (m : Machine) (e : Exec) (limit : Nat) :
    Machine.execute J readValue m e ≠ .error (.stepLimit limit) := by
  have hpop (m : Machine) : m.pop e ≠ .error (.stepLimit limit) := by
    unfold Machine.pop
    split <;> simp [Machine.stuck]
  have hassign (m : Machine) (v : VarRef) (value : Option Int32) : m.assign v value e ≠ .error (.stepLimit limit) := by
    unfold Machine.assign
    split <;> simp [Machine.unowned]
  have hfetch (m : Machine) (v : VarRef) : m.fetch v e ≠ .error (.stepLimit limit) := by
    unfold Machine.fetch
    split <;> simp [Machine.unowned]
  unfold Machine.execute
  cases e.step with
  | declare v | const v value | read v => exact bind_ne_error (hassign m v _) fun _ => nofun
  | load v => exact bind_ne_error (hfetch m v) fun _ => nofun
  | store v => exact bind_ne_error (hpop m) fun x => bind_ne_error (hassign x.2 v _) fun _ => nofun
  | oper op =>
    refine bind_ne_error (hpop m) fun x => bind_ne_error (hpop x.2) fun y => ?_
    cases h : op.apply y.1 x.1 <;> simp only [h] <;> nofun
  | write | jumpIfFalse target => exact bind_ne_error (hpop m) fun _ => nofun
  | forTest v exit => exact bind_ne_error (hpop m) fun x => bind_ne_error (hfetch x.2 v) fun _ => nofun
  | forStep v head => exact bind_ne_error (hfetch m v) fun x => bind_ne_error (hassign x.2 v _) fun _ => nofun
  | call procedure =>
    simp only
    split <;> simp [Machine.stuck]
  | leave =>
    simp only
    split <;> simp [Machine.stuck]
  | push value | jump target => nofun

theorem Ends.ne_stepLimit (h : Ends J readValue stop m n r) (limit : Nat) : r ≠ .error (.stepLimit limit) := by
  induction h with
  | finished | stopped => nofun
  | failed _ _ hfail =>
    intro heq
    cases heq
    exact execute_ne_stepLimit _ _ _ _ limit hfail
  | step _ _ _ _ ih => exact ih

/-- A limit is exact. A run that would end by itself has one number of steps and one result; with that number of steps
or more allowed this is the result, with fewer the run fails for want of steps. A run that would not end fails for want
of steps with every limit. So what a run gives for another reason it gives with every greater limit. -/
theorem Machine.run_limited (J : JumpCode) (readValue : Int32) (stop : Probe → Bool) :
    (∀ n r, Ends J readValue stop .initial n r →
      (∀ n' r', Ends J readValue stop .initial n' r' → n' = n ∧ r' = r) ∧
      (∀ probe m, r = .ok (probe, m) → m.steps = n) ∧
      ∀ limit, Machine.run J ⟨readValue, limit⟩ stop = if n ≤ limit then r else .error (.stepLimit limit)) ∧
    (∀ limit, Machine.run J ⟨readValue, limit⟩ stop = .error (.stepLimit limit) ↔
      ∀ n r, Ends J readValue stop .initial n r → limit < n) ∧
    ∀ limit limit', limit ≤ limit' → Machine.run J ⟨readValue, limit⟩ stop ≠ .error (.stepLimit limit) →
      Machine.run J ⟨readValue, limit'⟩ stop = Machine.run J ⟨readValue, limit⟩ stop := by
  have hrun {n r} (h : Ends J readValue stop .initial n r) (limit : Nat) :
      Machine.run J ⟨readValue, limit⟩ stop = if n ≤ limit then r else .error (.stepLimit limit) := h.runFor limit limit
  refine ⟨fun n r h => ⟨fun n' r' h' => h.unique h', ?_, hrun h⟩, fun limit => ⟨?_, ?_⟩, ?_⟩
  · rintro probe m rfl
    rw [h.steps_eq]
    exact Nat.zero_add n
  · intro hlimit n r h
    rw [hrun h] at hlimit
    split at hlimit
    · exact absurd hlimit (h.ne_stepLimit limit)
    · omega
  · intro hlong
    by_contra hne
    obtain ⟨n, hn, h⟩ := ends_of_runFor (rfl : Machine.run J ⟨readValue, limit⟩ stop = _) hne
    exact absurd (hlong n _ h) (Nat.not_lt.mpr hn)
  · intro limit limit' hle hne
    obtain ⟨n, hn, h⟩ := ends_of_runFor (rfl : Machine.run J ⟨readValue, limit⟩ stop = _) hne
    have hn' : n ≤ limit := hn
    rw [hrun h limit', if_pos (hn'.trans hle)]

/-- A division by zero in the third step: three steps are enough to come to it, two are not. -/
theorem Machine.run_limited_division : ∃ J : JumpCode,
    J = ⟨#[⟨.push 1, some 4⟩, ⟨.push 0, some 4⟩, ⟨.oper .div, some 4⟩, ⟨.write, some 4⟩], #[]⟩ ∧
      Ends J 0 (fun _ => false) .initial 3 (.error (.divisionByZero 4)) ∧
      Machine.run J ⟨0, 3⟩ (fun _ => false) = .error (.divisionByZero 4) ∧
      Machine.run J ⟨0, 2⟩ (fun _ => false) = .error (.stepLimit 2) := by
  obtain ⟨J, hJ, hends⟩ : ∃ J : JumpCode,
      J = ⟨#[⟨.push 1, some 4⟩, ⟨.push 0, some 4⟩, ⟨.oper .div, some 4⟩, ⟨.write, some 4⟩], #[]⟩ ∧
        Ends J 0 (fun _ => false) .initial 3 (.error (.divisionByZero 4)) :=
    ⟨_, rfl, .step rfl rfl rfl (.step rfl rfl rfl (.failed rfl rfl rfl))⟩
  have hrun := ((Machine.run_limited J 0 fun _ => false).1 3 _ hends).2.2
  exact ⟨J, hJ, hends, hrun 3, hrun 2⟩

end PLZero.Replay
