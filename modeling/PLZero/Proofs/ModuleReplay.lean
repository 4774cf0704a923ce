import PLZero.Proofs.ModuleMeaning
import PLZero.Proofs.ModuleValid
import PLZero.Proofs.ReplaySafe
import PLZero.Replay.Snapshot

/-! The text of a program's stack module, read and run, agrees with the replay. It ends with the output
and the globals of the replay, and it traps where the replay divides by zero or divides the least number
by minus one: the replay wraps there and goes on. -/

namespace PLZero

open Replay

theorem StackModule.sound_operate : Sound operate := by
  intro op l r v h
  rw [operate_eq] at h
  split at h
  · cases h
  · exact h

namespace Replay

/-- Within its steps the replay divides the least number by minus one. -/
def Overflows (J : JumpCode) (config : Config) : Prop :=
  ∃ m e rest, Reachable J config.readValue m ∧ m.steps < config.maxSteps ∧ J.code[m.pc]? = some e ∧
    e.step = .oper .div ∧ m.stack = -1 :: Int32.minValue :: rest

variable {operate : BinOp → Int32 → Int32 → Option Int32} {J : JumpCode} {readValue : Int32} {m m' : Machine}
  {n limit : Nat}

theorem Steps.steps_eq (h : Steps operate J readValue n m m') : m'.steps = m.steps + n := by
  induction h with
  | refl => rfl
  | @cons n m _ _ ha _ ih =>
    obtain ⟨e, -, ho, hm⟩ := ha
    rw [ih, (execute_ok (m := m.count e) ho hm).2]
    exact Nat.add_right_comm m.steps 1 n

theorem Steps.reachable (h : Steps operate J readValue n m m') (hm : Reachable J readValue m) :
    Reachable J readValue m' := by
  induction h with
  | refl => exact hm
  | cons ha _ ih =>
    obtain ⟨e, he, -, hok⟩ := ha
    exact ih (hm.step he hok)

/-- Where the module's arithmetic has no result the divisor is zero, or the quotient is too large. -/
theorem Faults.zero_or_overflow {line : Nat} (h : Faults StackModule.operate J line m)
    (hs : Steps operate J readValue n .initial m) (hn : n < limit) :
    Faults BinOp.apply J line m ∨ Overflows J ⟨readValue, limit⟩ := by
  obtain ⟨op, right, left, rest, he, hst, hop⟩ := h
  rw [StackModule.operate_eq] at hop
  split at hop
  · next hover =>
    obtain ⟨rfl, rfl, rfl⟩ := hover
    have hsteps : m.steps < limit := by
      rw [hs.steps_eq]
      exact (Nat.zero_add n).symm ▸ hn
    exact .inr ⟨m, _, rest, hs.reachable .initial, hsteps, he, rfl, hst⟩
  · exact .inl ⟨op, right, left, rest, he, hst, hop⟩

/-- A run that has come to an end comes to the same end with more steps. -/
theorem runFor_mono {stop : Probe → Bool} {limit' fuel fuel' : Nat} {r : Option Probe × Machine}
    (h : Machine.runFor J readValue stop limit fuel m = .ok r) (hle : fuel ≤ fuel') :
    Machine.runFor J readValue stop limit' fuel' m = .ok r := by
  obtain ⟨n, hn, hends⟩ := ends_of_runFor h nofun
  rw [hends.runFor, if_pos (hn.trans hle)]

section

variable {source : String} {p : Program} {t : Table} (hp : Program.ofSource source = .ok p)
  (ht : p.analyze = .ok t) (hJ : JumpCode.ofCode p.code = .ok J) {config : Config}

include hp ht hJ

theorem run_of_runTo {snapshot : Snapshot} (h : runTo source none config = .ok snapshot) :
    ∃ stop m, Machine.run J config (Machine.reaches none) = .ok (stop, m) ∧
      Prepared.snapshot ⟨J, t⟩ m (stop.map (·.line)) = snapshot :=
  run_of_runTo_eq_ok (Prepared.ofSource_eq hp ht hJ) h

theorem runTo_mono {snapshot : Snapshot} (h : runTo source none config = .ok snapshot)
    (hle : config.maxSteps ≤ limit) : runTo source none ⟨config.readValue, limit⟩ = .ok snapshot := by
  obtain ⟨stop, m, hrun, rfl⟩ := run_of_runTo hp ht hJ h
  have hrun' : Machine.run J ⟨config.readValue, limit⟩ (Machine.reaches none) = .ok (stop, m) :=
    runFor_mono hrun hle
  rw [runTo_eq_map (Prepared.ofSource_eq hp ht hJ), hrun']
  rfl

theorem runTo_error_iff {err : ReplayError} :
    runTo source none config = .error err ↔ Machine.run J config (Machine.reaches none) = .error err :=
  runTo_eq_error_iff (Prepared.ofSource_eq hp ht hJ)

end

end Replay

section

variable {value : List String → String → Option Int32 → Option Int32} {b : Binding}

mutual

theorem Symbol.path_of_mem_bindings {path : List String} (s : Symbol) (h : b ∈ s.bindings value path) :
    path <+: b.path := by
  match s with
  | .var name init line =>
    obtain rfl := List.mem_singleton.mp h
    exact List.prefix_rfl
  | .const name v line =>
    obtain rfl := List.mem_singleton.mp h
    exact List.prefix_rfl
  | .procedure name body line =>
    exact (List.prefix_append path [name]).trans (Symbol.path_of_mem_bindingsAll body h)

theorem Symbol.path_of_mem_bindingsAll {path : List String} (ss : List Symbol)
    (h : b ∈ Symbol.bindingsAll value path ss) : path <+: b.path := by
  match ss with
  | [] => cases h
  | s :: ss =>
    rcases List.mem_append.mp h with h | h
    · exact Symbol.path_of_mem_bindings s h
    · exact Symbol.path_of_mem_bindingsAll ss h

end

/-- A variable listed outside procedures is one that the table declares itself. -/
theorem Table.var_of_mem_bindings {t : Table} (h : b ∈ t.bindings value) (hpath : b.path = [])
    (hkind : b.kind = .variable) :
    ∃ init line, Symbol.var b.name init line ∈ t ∧ b.value = value [] b.name init := by
  induction t with
  | nil => cases h
  | cons s t ih =>
    rcases List.mem_append.mp h with h | h
    · match s with
      | .var name init line =>
        obtain rfl := List.mem_singleton.mp h
        exact ⟨init, line, List.mem_cons_self, rfl⟩
      | .const name v line =>
        obtain rfl := List.mem_singleton.mp h
        cases hkind
      | .procedure name body line =>
        have hprefix := Symbol.path_of_mem_bindingsAll body h
        rw [hpath] at hprefix
        cases List.prefix_nil.mp hprefix
    · obtain ⟨init, line, hmem, hvalue⟩ := ih h
      exact ⟨init, line, List.mem_cons_of_mem _ hmem, hvalue⟩

end

namespace Program

variable {source : String} {p : Program} {t : Table} {M : StackModule} {J : JumpCode} {readValue : Int32}
  {n limit : Nat} {m : Machine}

theorem declared_of_symbol {name : String} {init : Option Int32} {line : Nat}
    (hp : Program.ofSource source = .ok p) (ht : p.analyze = .ok t) (h : .var name init line ∈ t) :
    ([], .var name) ∈ p.declared := by
  obtain ⟨e, he, hname, hkind⟩ := (Program.lists_of_source hp ht).entry _ h
  match e with
  | .var n =>
    obtain rfl : n = name := hname
    exact (Block.mem_afterAll he rfl).resolve_left nofun

/-- A module with the variables of the meaning has those of the snapshot. -/
theorem snapshot_globals {σ : Meaning.State} {s : StackModule.State} {line : Option Nat} {b : Binding}
    (hp : Program.ofSource source = .ok p) (ht : p.analyze = .ok t)
    (hglobals : M.globals = p.declared.filterMap Declared.global?) (hend : Ended J σ m)
    (hvars : ∀ n, ([], .var n) ∈ p.declared → s.get n = σ.globals[n]?.getD 0)
    (hb : b ∈ (Prepared.snapshot ⟨J, t⟩ m line).bindings) (hpath : b.path = [])
    (hkind : b.kind = .variable) :
    (∃ exports value, Field.global ("$" ++ b.name) exports true value ∈ M.fields) ∧
      s.get b.name = b.value.getD 0 := by
  obtain ⟨init, line, hsym, hvalue⟩ := Table.var_of_mem_bindings hb hpath hkind
  have hd := declared_of_symbol hp ht hsym
  constructor
  · have hg : (⟨b.name, Declared.exported? ([], .var b.name), none⟩ : StackModule.Global) ∈ M.globals := by
      rw [hglobals]
      exact List.mem_filterMap.mpr ⟨_, hd, rfl⟩
    exact ⟨_, _, List.mem_append_left _ (List.mem_append_left _
      (List.mem_append_right _ (List.mem_map_of_mem hg)))⟩
  · rw [hvars _ hd, ← hend.globals, hvalue]
    rfl

section

variable (h : p.Scoped) (hat : Block.AtAll J (procedurePaths p.declared) [] .initial p.blocks 0 J.code.size)
  {fuel : Nat}

include h hat

/-- Where only the module's arithmetic keeps the machine from going on, the program has a fault with it. -/
theorem fault_of_stuck {e : Exec} (hs : Steps BinOp.apply J readValue n .initial m)
    (hfuel : n < fuel) (he : J.code[m.pc]? = some e)
    (hstuck : ∀ m', ¬ Advances StackModule.operate J readValue m m') :
    ∃ line, p.exec StackModule.operate readValue fuel = .fault (.division line) := by
  rcases progress h hat StackModule.sound_operate hs hfuel with
    ⟨m', ha⟩ | ⟨s, hend⟩ | ⟨line, -, -, hexec, -⟩
  · exact absurd ha (hstuck m')
  · rw [hend.code_eq_none] at he
    cases he
  · exact ⟨line, hexec⟩

theorem fault_of_overflow (hover : Overflows J ⟨readValue, limit⟩) (hfuel : limit < fuel) :
    ∃ line, p.exec StackModule.operate readValue fuel = .fault (.division line) := by
  obtain ⟨m, e, rest, hm, hsteps, he, hdiv, hst⟩ := hover
  obtain ⟨n, hs⟩ := steps_of_reachable h hat hm
  have hn : n < limit := by
    rw [hs.steps_eq] at hsteps
    exact Nat.zero_add n ▸ hsteps
  exact fault_of_stuck h hat hs (hn.trans hfuel) he (not_advances he hdiv hst rfl)

theorem fault_of_zero {line : Nat}
    (hrun : Machine.run J ⟨readValue, limit⟩ (Machine.reaches none) = .error (.divisionByZero line))
    (hfuel : limit < fuel) :
    ∃ line, p.exec StackModule.operate readValue fuel = .fault (.division line) := by
  rcases run_cases h hat readValue limit with ⟨s, m, -, -, hrun'⟩ | ⟨line', hexec, -⟩ | hrun'
  · cases hrun.symm.trans hrun'
  · obtain ⟨n, m, hs, op, right, left, rest, he, hst, hop⟩ := steps_of_fault h hat hexec
    have hn : n < limit := by
      by_contra hn
      have hcut := hs.run_cut (not_lt.mp hn) fun _ => by simp [he]
      cases hrun.symm.trans hcut
    have hop' : StackModule.operate op left right = none := by
      rw [StackModule.operate_eq, hop, ite_self]
    exact fault_of_stuck h hat hs (hn.trans hfuel) he (not_advances he rfl hst hop')
  · cases hrun.symm.trans hrun'

section

variable (hN : EndsWithin StackModule.operate J readValue limit)

include hN

theorem run_of_fault {line : Nat}
    (hexec : p.exec StackModule.operate readValue fuel = .fault (.division line)) :
    Machine.run J ⟨readValue, limit⟩ (Machine.reaches none) = .error (.divisionByZero line) ∨
      Overflows J ⟨readValue, limit⟩ := by
  have hmeets := p.meets StackModule.sound_operate h hat readValue fuel
  rw [hexec] at hmeets
  obtain ⟨n, m, hs, hf⟩ := hmeets
  have hn := hN n m hs hf.stops
  exact (hf.zero_or_overflow hs hn).imp_left fun hzero => hs.run_faults hzero hn

/-- The program has a fault with the module's arithmetic where the replay fails, or wraps a quotient. -/
theorem fault_iff (hfuel : limit < fuel) :
    (∃ line, p.exec StackModule.operate readValue fuel = .fault (.division line)) ↔
      (∃ line, Machine.run J ⟨readValue, limit⟩ (Machine.reaches none) =
        .error (.divisionByZero line)) ∨ Overflows J ⟨readValue, limit⟩ := by
  constructor
  · rintro ⟨line, hexec⟩
    exact (run_of_fault h hat hN hexec).imp_left fun hrun => ⟨line, hrun⟩
  · rintro (⟨line, hrun⟩ | hover)
    · exact fault_of_zero h hat hrun hfuel
    · exact fault_of_overflow h hat hover hfuel

/-- A replay that ends without wrapping a quotient ends as the program does with the module's arithmetic. -/
theorem done_of_run {stop : Option Probe} (hfuel : limit < fuel)
    (hover : ¬ Overflows J ⟨readValue, limit⟩)
    (hrun : Machine.run J ⟨readValue, limit⟩ (Machine.reaches none) = .ok (stop, m)) :
    ∃ σ, p.exec StackModule.operate readValue fuel = .done σ ∧ Ended J σ m := by
  -- the machine wraps where the module traps, so it is run with the module's arithmetic up to there
  have hmeets := p.meets StackModule.sound_operate h hat readValue fuel
  revert hmeets
  match hexec : p.exec StackModule.operate readValue fuel with
  | .done σ =>
    rintro ⟨n, m', hs, hend⟩
    have hrun' := hs.run_ended hend.code_eq_none (hN n m' hs hend.stops).le
    cases hrun.symm.trans hrun'
    exact ⟨σ, rfl, hend⟩
  | .fault (.division line) =>
    intro _
    rcases run_of_fault h hat hN hexec with hrun' | hover'
    · cases hrun.symm.trans hrun'
    · exact absurd hover' hover
  | .fault (.undeclared name) => exact False.elim
  | .exhausted =>
    rintro ⟨n, m', hn, hs⟩
    have hcut : limit < n := hfuel.trans_le hn
    have hrun' := hs.run_cut hcut.le fun heq => absurd heq (Nat.ne_of_lt hcut)
    cases hrun.symm.trans hrun'

end

end

/-- For every step limit that is large enough, the text of the module of a program read from source text,
read back and run with more turns and open calls than that limit, ends as the replay does; it traps
exactly where the replay divides by zero, or wraps a quotient. -/
theorem module_agrees (hp : Program.ofSource source = .ok p) (ht : p.analyze = .ok t) :
    ∃ text fields J, Target.stackModule.render p.code = .ok (text, []) ∧
      Field.allOfText? text = some fields ∧ JumpCode.ofCode p.code = .ok J ∧
      ∀ readValue, ∃ N, ∀ limit ≥ N, ∀ fuel > limit,
        (∀ snapshot, runTo source none ⟨readValue, limit⟩ = .ok snapshot →
          ¬ Overflows J ⟨readValue, limit⟩ →
          ∃ s, StackModule.run fields .unlimited readValue fuel fuel = .next s ∧
            s.output.toList = snapshot.output ∧
            ∀ b ∈ snapshot.bindings, b.path = [] → b.kind = .variable →
              (∃ exports value, .global ("$" ++ b.name) exports true value ∈ fields) ∧
              s.globals.getD ("$" ++ b.name) 0 = b.value.getD 0) ∧
        (StackModule.run fields .unlimited readValue fuel fuel = .trap ↔
          (∃ line, runTo source none ⟨readValue, limit⟩ = .error (.divisionByZero line)) ∨
            Overflows J ⟨readValue, limit⟩) := by
  have h := Program.scoped_of_source hp ht
  obtain ⟨J, hJ, hat⟩ := p.lowers h
  obtain ⟨M, hM, hwell, hglobals, -, hentry⟩ := p.emits_wellFormed h
  refine ⟨M.text, M.fields, J, hM, hwell.allOfText?_text, hJ, fun readValue => ?_⟩
  have hmirrors := Program.mirrors h hglobals hwell.provides hentry readValue
  obtain ⟨N, hN⟩ := exists_endsWithin StackModule.operate J readValue
  refine ⟨N, fun limit hlimit fuel hfuel => ⟨fun snapshot hsnap hover => ?_, ?_⟩⟩
  · obtain ⟨stop, m, hrun, rfl⟩ := run_of_runTo hp ht hJ hsnap
    obtain ⟨σ, hexec, hend⟩ := done_of_run h hat (hN.mono hlimit) hfuel hover hrun
    have hmirror := hmirrors fuel
    rw [hexec] at hmirror
    obtain ⟨s, hs, hout, hvars⟩ := hmirror
    have houtput : s.output.toList = m.output.toList := by rw [hout, hend.output]
    exact ⟨s, hs, houtput, fun b => snapshot_globals hp ht hglobals hend hvars⟩
  · simp only [runTo_error_iff hp ht hJ, ← fault_iff h hat (hN.mono hlimit) hfuel]
    exact (hmirrors fuel).trap_iff

/-- A procedure with a variable of its own, called twice: from the replay follows what the text does. -/
theorem module_agrees_call : ∃ p t text fields N,
    Program.ofSource "var s; procedure p; var k; begin read k; s := s + k; write s; end; p; p;" =
        .ok p ∧ p.analyze = .ok t ∧ Target.stackModule.render p.code = .ok (text, []) ∧
      Field.allOfText? text = some fields ∧
      ∀ fuel > N, ∃ s, StackModule.run fields .unlimited 5 fuel fuel = .next s ∧
        s.output.toList = [5, 10] ∧ s.globals.getD "$s" 0 = 10 := by
  obtain ⟨source, hsource, p, t, J, hp, ht, hJ, hdiv, hrun⟩ : ∃ source,
      source = "var s; procedure p; var k; begin read k; s := s + k; write s; end; p; p;" ∧
        ∃ p t J, Program.ofSource source = .ok p ∧ p.analyze = .ok t ∧
          JumpCode.ofCode p.code = .ok J ∧ (∀ e ∈ J.code, e.step ≠ .oper .div) ∧
          runTo source none ⟨5, 30⟩ =
            .ok ⟨[⟨"s", some 10, .variable, []⟩, ⟨"k", none, .variable, ["p"]⟩], none, [5, 10]⟩ :=
    ⟨_, rfl, _, _, _, rfl, rfl, rfl, by decide, by decide +kernel⟩
  obtain ⟨text, fields, J', hrender, hfields, hJ', hagree⟩ := module_agrees hp ht
  cases hJ.symm.trans hJ'
  obtain ⟨N, hN⟩ := hagree 5
  have hover : ¬ Overflows J ⟨5, N + 30⟩ := by
    rintro ⟨m, e, rest, -, -, he, hstep, -⟩
    exact hdiv e (Array.mem_of_getElem? he) hstep
  have hrun' := runTo_mono hp ht hJ hrun (Nat.le_add_left 30 N)
  refine ⟨p, t, text, fields, N + 30, hsource ▸ hp, ht, hrender, hfields, fun fuel hfuel => ?_⟩
  obtain ⟨s, hs, hout, hvars⟩ := (hN (N + 30) (Nat.le_add_right N 30) fuel hfuel).1 _ hrun' hover
  exact ⟨s, hs, hout, (hvars _ List.mem_cons_self rfl rfl).2⟩

end Program

end PLZero
