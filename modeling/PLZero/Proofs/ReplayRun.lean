import PLZero.Proofs.Lowered
import PLZero.Proofs.ReplayMeaning

/-! A replay of a program read from source text gives what the program means: with enough steps it ends with
the globals and the output of the meaning, or with a division by zero on the line where the meaning has
one. -/

namespace PLZero

open Meaning Replay

namespace Replay

variable {operate operate' : BinOp → Int32 → Int32 → Option Int32} {J : JumpCode} {readValue : Int32}
  {m m' m'' : Machine} {n n' limit fuel line : Nat}

theorem Advances.unique (h : Advances operate J readValue m m') (h' : Advances operate' J readValue m m'') :
    m' = m'' := by
  obtain ⟨e, he, -, hm⟩ := h
  obtain ⟨e', he', -, hm'⟩ := h'
  obtain rfl := Option.some.inj (he.symm.trans he')
  exact Except.ok.inj (hm.symm.trans hm')

theorem stopAt_none (m : Machine) (e : Exec) : m.stopAt (Machine.reaches none) e = none := by
  cases h : e.line <;> simp [Machine.stopAt, Machine.reaches, h]

theorem Advances.runFor (h : Advances operate J readValue m m') (limit fuel : Nat) :
    Machine.runFor J readValue (Machine.reaches none) limit (fuel + 1) m =
      Machine.runFor J readValue (Machine.reaches none) limit fuel m' := by
  obtain ⟨e, he, -, hm⟩ := h
  rw [Machine.runFor, he]
  simp only [stopAt_none, hm]

theorem Steps.runFor (h : Steps operate J readValue n m m') (limit fuel : Nat) :
    Machine.runFor J readValue (Machine.reaches none) limit (n + fuel) m =
      Machine.runFor J readValue (Machine.reaches none) limit fuel m' := by
  induction h with
  | refl => rw [Nat.zero_add]
  | @cons n _ _ _ ha _ ih => rw [Nat.add_right_comm, ha.runFor, ih]

/-- A run that has more to do than it has steps for. -/
theorem Steps.runFor_le (h : Steps operate J readValue n m m') (limit : Nat) (hle : fuel ≤ n)
    (hend : fuel = n → J.code[m'.pc]? ≠ none) :
    Machine.runFor J readValue (Machine.reaches none) limit fuel m = .error (.stepLimit limit) := by
  have hcut {m : Machine} (hcode : J.code[m.pc]? ≠ none) :
      Machine.runFor J readValue (Machine.reaches none) limit 0 m = .error (.stepLimit limit) := by
    obtain ⟨e, he⟩ := Option.ne_none_iff_exists'.mp hcode
    rw [Machine.runFor.eq_def, he]
    simp only [stopAt_none]
  induction h generalizing fuel with
  | refl =>
    obtain rfl := Nat.le_zero.mp hle
    exact hcut (hend rfl)
  | cons ha _ ih =>
    cases fuel with
    | zero =>
      obtain ⟨e, he, -, -⟩ := ha
      exact hcut (by simp [he])
    | succ fuel =>
      rw [ha.runFor, ih (Nat.le_of_succ_le_succ hle) fun heq => hend (congrArg (· + 1) heq)]

theorem runFor_ended (h : J.code[m.pc]? = none) (limit fuel : Nat) :
    Machine.runFor J readValue (Machine.reaches none) limit fuel m = .ok (none, m) := by
  rw [Machine.runFor.eq_def, h]

theorem Ended.code_eq_none {s : State} (h : Ended J s m) : J.code[m.pc]? = none :=
  Array.getElem?_eq_none (Nat.le_of_eq h.pc.symm)

theorem Faults.execute {e : Exec} (h : Faults BinOp.apply J line m) (he : J.code[m.pc]? = some e) :
    Machine.execute J readValue (m.count e) e = .error (.divisionByZero line) := by
  obtain ⟨op, right, left, rest, he', hst, hop⟩ := h
  obtain rfl := Option.some.inj (he'.symm.trans he)
  simp only [Machine.execute, Machine.pop, Machine.count, hst, bind, Except.bind, hop]
  rfl

theorem Faults.runFor (h : Faults BinOp.apply J line m) (limit fuel : Nat) :
    Machine.runFor J readValue (Machine.reaches none) limit (fuel + 1) m = .error (.divisionByZero line) := by
  obtain ⟨op, right, left, rest, he, -⟩ := id h
  rw [Machine.runFor, he]
  simp only [stopAt_none, h.execute he]

/-- Two runs that cannot go on are the same run. -/
theorem Steps.unique (h : Steps operate J readValue n m m') (h' : Steps operate J readValue n' m m'')
    (hend : ∀ a, ¬ Advances operate J readValue m' a) (hend' : ∀ a, ¬ Advances operate J readValue m'' a) :
    n = n' := by
  induction h generalizing n' with
  | refl =>
    cases h' with
    | refl => rfl
    | cons ha _ => exact absurd ha (hend _)
  | cons ha _ ih =>
    cases h' with
    | refl => exact absurd ha (hend' _)
    | cons ha' hs' =>
      obtain rfl := ha.unique ha'
      rw [ih hs' hend]

theorem Ended.stops {s : State} (h : Ended J s m) (m' : Machine) : ¬ Advances operate J readValue m m' := by
  rintro ⟨e, he, -⟩
  rw [h.code_eq_none] at he
  cases he

theorem not_advances {e : Exec} {op : BinOp} {left right : Int32} {rest : List Int32}
    (he : J.code[m.pc]? = some e) (hstep : e.step = .oper op) (hst : m.stack = right :: left :: rest)
    (hop : operate op left right = none) (m' : Machine) : ¬ Advances operate J readValue m m' := by
  rintro ⟨e', he', ho, -⟩
  obtain rfl := Option.some.inj (he.symm.trans he')
  rw [Orderly, hstep] at ho
  exact ho right left rest hst hop

theorem Faults.stops (h : Faults operate J line m) (m' : Machine) :
    ¬ Advances operate J readValue m m' := by
  obtain ⟨op, right, left, rest, he, hst, hop⟩ := h
  exact not_advances he rfl hst hop m'

/-- Where the machine comes to an end, it does so in less than `limit` steps. -/
def EndsWithin (operate : BinOp → Int32 → Int32 → Option Int32) (J : JumpCode) (readValue : Int32) (limit : Nat) :
    Prop :=
  ∀ n m, Steps operate J readValue n .initial m → (∀ m', ¬ Advances operate J readValue m m') → n < limit

theorem EndsWithin.mono (h : EndsWithin operate J readValue n) (hn : n ≤ limit) :
    EndsWithin operate J readValue limit :=
  fun n' m hs hend => (h n' m hs hend).trans_le hn

theorem exists_endsWithin (operate : BinOp → Int32 → Int32 → Option Int32) (J : JumpCode) (readValue : Int32) :
    ∃ N, EndsWithin operate J readValue N := by
  by_cases h : ∃ n m, Steps operate J readValue n .initial m ∧ ∀ m', ¬ Advances operate J readValue m m'
  · obtain ⟨n, m, hs, hend⟩ := h
    refine ⟨n + 1, fun n' m' hs' hend' => ?_⟩
    rw [hs.unique hs' hend hend']
    exact Nat.lt_succ_self n'
  · exact ⟨0, fun n m hs hend => absurd ⟨n, m, hs, hend⟩ h⟩

theorem Steps.run_ended (h : Steps operate J readValue n .initial m) (hend : J.code[m.pc]? = none)
    (hn : n ≤ limit) : Machine.run J ⟨readValue, limit⟩ (Machine.reaches none) = .ok (none, m) := by
  obtain ⟨fuel, rfl⟩ := Nat.exists_eq_add_of_le hn
  exact (h.runFor (n + fuel) fuel).trans (runFor_ended hend _ _)

theorem Steps.run_faults (h : Steps operate J readValue n .initial m)
    (hf : Faults BinOp.apply J line m) (hn : n < limit) :
    Machine.run J ⟨readValue, limit⟩ (Machine.reaches none) = .error (.divisionByZero line) := by
  obtain ⟨fuel, rfl⟩ := Nat.exists_eq_add_of_lt hn
  exact (h.runFor (n + fuel + 1) (fuel + 1)).trans (hf.runFor _ _)

theorem Steps.run_cut (h : Steps operate J readValue n .initial m) (hn : limit ≤ n)
    (hend : limit = n → J.code[m.pc]? ≠ none) :
    Machine.run J ⟨readValue, limit⟩ (Machine.reaches none) = .error (.stepLimit limit) :=
  h.runFor_le limit hn hend

/-- A replay of the whole program ends with these globals and this output. -/
def ReplaysTo (J : JumpCode) (config : Config) (globals : Meaning.Frame) (output : Array Int32) : Prop :=
  ∃ m, Machine.run J config (Machine.reaches none) = .ok (none, m) ∧ m.output = output ∧
    ∀ name, m.globals.value name = globals[name]?

end Replay

/-- With enough fuel the program ends with these globals and this output. -/
def Program.EndsWith (p : Program) (readValue : Int32) (globals : Meaning.Frame) (output : Array Int32) : Prop :=
  ∃ fuel s, p.exec BinOp.apply readValue fuel = .done s ∧ s.globals = globals ∧ s.output = output

/-- With enough fuel the program comes to a division by zero on this line. -/
def Program.DividesByZero (p : Program) (readValue : Int32) (line : Nat) : Prop :=
  ∃ fuel, p.exec BinOp.apply readValue fuel = .fault (.division line)

namespace Program

variable {p : Program} {J : JumpCode} {readValue : Int32} {limit n fuel : Nat}

section

variable (h : p.Scoped) (hat : Block.AtAll J (procedurePaths p.declared) [] .initial p.blocks 0 J.code.size)

include h hat

theorem meets_apply (readValue : Int32) (fuel : Nat) :
    Meets BinOp.apply J readValue fuel (p.exec BinOp.apply readValue fuel) .initial (fun s m => Ended J s m) :=
  p.meets .apply h hat readValue fuel

theorem steps_of_done {s : State} (hexec : p.exec BinOp.apply readValue fuel = .done s) :
    ∃ n m, Steps BinOp.apply J readValue n .initial m ∧ Ended J s m := by
  have := meets_apply h hat readValue fuel
  rwa [hexec] at this

theorem steps_of_fault {line : Nat} (hexec : p.exec BinOp.apply readValue fuel = .fault (.division line)) :
    ∃ n m, Steps BinOp.apply J readValue n .initial m ∧ Faults BinOp.apply J line m := by
  have := meets_apply h hat readValue fuel
  rwa [hexec] at this

/-- What a replay within `limit` steps comes to is what one step more of fuel gives. -/
theorem run_cases (readValue : Int32) (limit : Nat) :
    (∃ s m, p.exec BinOp.apply readValue (limit + 1) = .done s ∧ Ended J s m ∧
      Machine.run J ⟨readValue, limit⟩ (Machine.reaches none) = .ok (none, m)) ∨
    (∃ line, p.exec BinOp.apply readValue (limit + 1) = .fault (.division line) ∧
      Machine.run J ⟨readValue, limit⟩ (Machine.reaches none) = .error (.divisionByZero line)) ∨
    Machine.run J ⟨readValue, limit⟩ (Machine.reaches none) = .error (.stepLimit limit) := by
  have hmeets := meets_apply h hat readValue (limit + 1)
  revert hmeets
  cases hexec : p.exec BinOp.apply readValue (limit + 1) with
  | done s =>
    rintro ⟨n, m, hs, hm⟩
    rcases Nat.lt_or_ge limit n with hlt | hge
    · exact .inr (.inr (hs.run_cut hlt.le fun heq => absurd heq hlt.ne))
    · exact .inl ⟨s, m, rfl, hm, hs.run_ended hm.code_eq_none hge⟩
  | fault f =>
    cases f with
    | division line =>
      rintro ⟨n, m, hs, hm⟩
      rcases Nat.lt_or_ge n limit with hlt | hge
      · exact .inr (.inl ⟨line, rfl, hs.run_faults hm hlt⟩)
      · obtain ⟨op, right, left, rest, he, -⟩ := hm
        exact .inr (.inr (hs.run_cut hge fun _ => by simp [he]))
    | undeclared name => exact False.elim
  | exhausted =>
    rintro ⟨n, m, hn, hs⟩
    exact .inr (.inr (hs.run_cut (Nat.le_of_succ_le hn) fun heq => absurd heq (Nat.ne_of_lt hn)))

end

/-- The replay of a program read from source text does what the program means, for every step limit that
is large enough. -/
theorem replay_agrees {source : String} {t : Table} (hp : Program.ofSource source = .ok p)
    (ht : p.analyze = .ok t) :
    ∃ J, JumpCode.ofCode p.code = .ok J ∧ ∀ readValue, ∃ N, ∀ limit ≥ N,
      (∀ globals output, p.EndsWith readValue globals output ↔ ReplaysTo J ⟨readValue, limit⟩ globals output) ∧
      ∀ line, p.DividesByZero readValue line ↔
        Machine.run J ⟨readValue, limit⟩ (Machine.reaches none) = .error (.divisionByZero line) := by
  have h := Program.scoped_of_source hp ht
  obtain ⟨J, hJ, hat⟩ := p.lowers h
  refine ⟨J, hJ, fun readValue => ?_⟩
  obtain ⟨N, hN⟩ := exists_endsWithin BinOp.apply J readValue
  refine ⟨N, fun limit hlimit => ?_⟩
  replace hN := hN.mono hlimit
  refine ⟨fun globals output => ⟨?_, ?_⟩, fun line => ⟨?_, ?_⟩⟩
  · rintro ⟨fuel, s, hexec, rfl, rfl⟩
    obtain ⟨n, m, hs, hm⟩ := steps_of_done h hat hexec
    exact ⟨m, hs.run_ended hm.code_eq_none (hN n m hs hm.stops).le, hm.output, hm.globals⟩
  · rintro ⟨m, hrun, rfl, hglobals⟩
    rcases run_cases h hat readValue limit with ⟨s, m', hexec, hm, hrun'⟩ | ⟨line, -, hrun'⟩ | hrun'
    · cases hrun.symm.trans hrun'
      refine ⟨limit + 1, s, hexec, Std.ExtTreeMap.ext_getElem? fun name => ?_, hm.output.symm⟩
      rw [← hm.globals, hglobals]
    · cases hrun.symm.trans hrun'
    · cases hrun.symm.trans hrun'
  · rintro ⟨fuel, hexec⟩
    obtain ⟨n, m, hs, hm⟩ := steps_of_fault h hat hexec
    exact hs.run_faults hm (hN n m hs hm.stops)
  · intro hrun
    rcases run_cases h hat readValue limit with ⟨s, m', -, -, hrun'⟩ | ⟨line', hexec, hrun'⟩ | hrun'
    · cases hrun.symm.trans hrun'
    · cases hrun.symm.trans hrun'
      exact ⟨limit + 1, hexec⟩
    · cases hrun.symm.trans hrun'

/-- A program that divides by what it reads: with zero read both end at the division. -/
theorem replay_agrees_zero_read : ∃ p t J, Program.ofSource "var x; read x; write 6 / x;" = .ok p ∧
    p.analyze = .ok t ∧ JumpCode.ofCode p.code = .ok J ∧ p.DividesByZero 0 1 ∧ ∃ N, ∀ limit ≥ N,
      Machine.run J ⟨0, limit⟩ (Machine.reaches none) = .error (.divisionByZero 1) := by
  obtain ⟨p, t, hp, ht, hzero⟩ : ∃ p t, Program.ofSource "var x; read x; write 6 / x;" = .ok p ∧
      p.analyze = .ok t ∧ p.DividesByZero 0 1 := ⟨_, _, rfl, rfl, 1, rfl⟩
  obtain ⟨J, hJ, hagree⟩ := replay_agrees hp ht
  obtain ⟨N, hN⟩ := hagree 0
  exact ⟨p, t, J, hp, ht, hJ, hzero, N, fun limit hlimit => ((hN limit hlimit).2 1).mp hzero⟩

end Program

end PLZero
