import PLZero.Proofs.Accepted
import PLZero.Proofs.ReplaySafe
import PLZero.Proofs.Staged
import PLZero.Replay.Session

/-! A source text is compiled along several routes: to the text of a target, stage by stage for a report, and for
a replay, to a line or in a session. All routes accept the same texts and refuse the others for the same reason. -/

namespace PLZero

open Replay

/-- Why a source text is not compiled. -/
inductive SourceError
  | parse (e : ParseError)
  | scope (e : ScopeError)
  deriving DecidableEq, Repr

namespace SourceError

def message : SourceError → String
  | .parse e => e.message
  | .scope e => e.message

def toBuild : SourceError → BuildError
  | .parse e => .parse e
  | .scope e => .scope e

def toReplay : SourceError → ReplayError
  | .parse e => .parse e
  | .scope e => .scope e

def stage : SourceError → Stage
  | .parse _ => .syntactic
  | .scope _ => .semantic

/-- What a report for all stages says: the error, and that no later stage was run. -/
def diagnostics (e : SourceError) : List (Stage × String) :=
  (e.stage, e.message) :: (Stage.all.dropWhile (· ≠ e.stage)).tail.map
    (·, s!"not run because the {e.stage.name} stage failed")

end SourceError

/-- Every route gets past the compilation of the text, and the report has the target text that is built. -/
structure Compiles (source : String) : Prop where
  build : ∀ target : Target, ∃ text, (target.build source).value = .ok text ∧
    (Report.compile source .all target).value.target = some (.ok ⟨target, text⟩)
  report : ∀ target, (Report.compile source .all target).value.diagnostics = []
  session : ∀ requested config, ∃ s, Session.start source requested config = .ok s
  replay : ∀ line config err, runTo source line config = .error err →
    err = .stepLimit config.maxSteps ∨ ∃ line, err = .divisionByZero line

/-- Every route fails with this error. -/
structure FailsWith (source : String) (e : SourceError) : Prop where
  build : ∀ target : Target, (target.build source).value = .error e.toBuild
  report : ∀ target, (Report.compile source .all target).value.diagnostics = e.diagnostics
  session : ∀ requested config, Session.start source requested config = .error e.toReplay
  replay : ∀ line config, runTo source line config = .error e.toReplay

namespace Progress

variable {α : Type} {succeeded : StageSet} {failed stage : Stage} {p : Progress} {body : Unit → Traced (Outcome α)}

/-- A compilation in all stages, of which these have succeeded and this one was the first to fail. -/
structure At (succeeded : StageSet) (failure : Option Stage) (p : Progress) : Prop where
  needed : p.needed = .all
  succeeded : p.succeeded = succeeded
  failure : p.firstFailure = failure

theorem At.needs {failure : Option Stage} (h : p.At succeeded failure) (stage : Stage) :
    p.needed.contains stage = true := by
  rw [h.needed, StageSet.contains_all]

theorem At.result_eq {failure : Option Stage} (h : p.At succeeded failure)
    (hs : ∀ b ∈ stage.prerequisites, succeeded.contains b = true) : p.result stage body = body () := by
  have hfind : stage.prerequisites.find? (!p.succeeded.contains ·) = none := by
    rw [h.succeeded, List.find?_eq_none]
    simpa using hs
  rw [result, blocker, hfind]
  rfl

theorem At.run_ok {a : α} (h : p.At succeeded none) (hs : ∀ b ∈ stage.prerequisites, succeeded.contains b = true)
    (hbody : (body ()).value = .ok a) :
    (p.run stage body).1 = some (.ok a) ∧ (p.run stage body).2.At (succeeded.insert stage) none := by
  rw [run_of_needed (h.needs stage), h.result_eq hs]
  unfold record
  rw [hbody]
  exact ⟨rfl, h.needed, congrArg (·.insert stage) h.succeeded, h.failure⟩

theorem At.run_error {e : StageError} (h : p.At succeeded none)
    (hs : ∀ b ∈ stage.prerequisites, succeeded.contains b = true) (hbody : (body ()).value = .error e) :
    (p.run stage body).1 = some (.error e) ∧ (p.run stage body).2.At succeeded (some stage) := by
  rw [run_of_needed (h.needs stage), h.result_eq hs]
  unfold record
  rw [hbody]
  exact ⟨rfl, h.needed, h.succeeded, congrArg (·.or (some stage)) h.failure⟩

/-- A stage behind the one that failed is kept from running, and that one stays the first that failed. -/
theorem At.run_blocked (h : p.At succeeded (some failed))
    (hs : ∃ b ∈ stage.prerequisites, succeeded.contains b = false) :
    (p.run stage body).1 = some (.error (.blocked failed)) ∧ (p.run stage body).2.At succeeded (some failed) := by
  have hblocker : p.blocker stage = some failed := by
    obtain ⟨b, hb, hbs⟩ := hs
    have hfind : (stage.prerequisites.find? (!p.succeeded.contains ·)).isSome = true := by
      rw [h.succeeded, List.find?_isSome]
      exact ⟨b, hb, by simp [hbs]⟩
    obtain ⟨c, hc⟩ := Option.isSome_iff_exists.mp hfind
    rw [blocker, hc, h.failure]
    rfl
  have hresult : p.result stage body = ⟨.error (.blocked failed), []⟩ := by
    rw [result, hblocker]
  rw [run_of_needed (h.needs stage), hresult]
  exact ⟨rfl, h.needed, h.succeeded, congrArg (·.or (some stage)) h.failure⟩

end Progress

variable {source : String} {p : Program} {t : Table}

namespace Report

theorem scanned (source : String) : (scanning .all source).1 = some (.ok (Scan.ofSource source)) ∧
    (scanning .all source).2.At (.ofList [.lexical]) none :=
  Progress.At.run_ok ⟨rfl, rfl, rfl⟩ (by decide) rfl

theorem parsing_body (source : String) :
    (given .lexical (scanning .all source).1 fun scan => ⟨(Program.ofTokens scan.tokens).mapError .parse, []⟩).value =
      (Program.ofSource source).mapError StageError.parse := by
  rw [(scanned source).1]
  rfl

theorem parsed (hp : Program.ofSource source = .ok p) : (parsing .all source).1 = some (.ok p) ∧
    (parsing .all source).2.At (.ofList [.lexical, .syntactic]) none := by
  refine (scanned source).2.run_ok (by decide) ?_
  rw [parsing_body, hp]
  rfl

theorem not_parsed {e : ParseError} (hp : Program.ofSource source = .error e) :
    (parsing .all source).1 = some (.error (.parse e)) ∧
      (parsing .all source).2.At (.ofList [.lexical]) (some .syntactic) := by
  refine (scanned source).2.run_error (by decide) ?_
  rw [parsing_body, hp]
  rfl

theorem resolving_body (hp : Program.ofSource source = .ok p) :
    (given .syntactic (parsing .all source).1 fun program => ⟨program.analyze.mapError .scope, []⟩).value =
      p.analyze.mapError StageError.scope := by
  rw [(parsed hp).1]
  rfl

theorem resolved (hp : Program.ofSource source = .ok p) (ht : p.analyze = .ok t) :
    (resolving .all source).1 = some (.ok t) ∧
      (resolving .all source).2.At (.ofList [.lexical, .syntactic, .semantic]) none := by
  refine (parsed hp).2.run_ok (by decide) ?_
  rw [resolving_body hp, ht]
  rfl

theorem not_resolved {e : ScopeError} (hp : Program.ofSource source = .ok p) (ht : p.analyze = .error e) :
    (resolving .all source).1 = some (.error (.scope e)) ∧
      (resolving .all source).2.At (.ofList [.lexical, .syntactic]) (some .semantic) := by
  refine (parsed hp).2.run_error (by decide) ?_
  rw [resolving_body hp, ht]
  rfl

theorem generated (hp : Program.ofSource source = .ok p) (ht : p.analyze = .ok t) :
    (generating .all source).1 = some (.ok p.code) ∧
      (generating .all source).2.At (.ofList [.lexical, .syntactic, .semantic, .intermediate]) none := by
  refine (resolved hp ht).2.run_ok (by decide) ?_
  rw [(parsed hp).1, (resolved hp ht).1]
  rfl

theorem lowered {target : Target} {text : String} (hp : Program.ofSource source = .ok p) (ht : p.analyze = .ok t)
    (hl : (target.lower p.code).value = .ok text) : (lowering .all source target).1 = some (.ok ⟨target, text⟩) := by
  refine ((generated hp ht).2.run_ok (by decide) ?_).1
  rw [(generated hp ht).1]
  change ((target.lower p.code).value.map (TargetText.mk target)).mapError StageError.code = _
  rw [hl]
  rfl

/-- Once a stage before the code has failed, neither code nor text is made. -/
theorem not_generated {succeeded : StageSet} {failed : Stage} (target : Target)
    (h : (resolving .all source).2.At succeeded (some failed)) (hs : succeeded.contains .semantic = false)
    (hi : succeeded.contains .intermediate = false) :
    (generating .all source).1 = some (.error (.blocked failed)) ∧
      (lowering .all source target).1 = some (.error (.blocked failed)) := by
  have hgenerate : (generating .all source).1 = some (.error (.blocked failed)) ∧
      (generating .all source).2.At succeeded (some failed) := h.run_blocked ⟨.semantic, by decide, hs⟩
  exact ⟨hgenerate.1, (hgenerate.2.run_blocked ⟨.intermediate, by decide, hi⟩).1⟩

theorem diagnostics_of_parse_error {e : ParseError} (hp : Program.ofSource source = .error e) (target : Target) :
    (compile source .all target).value.diagnostics = (SourceError.parse e).diagnostics := by
  obtain ⟨hparse, hnext⟩ := not_parsed hp
  have hresolve : (resolving .all source).1 = some (.error (.blocked .syntactic)) ∧
      (resolving .all source).2.At (.ofList [.lexical]) (some .syntactic) :=
    hnext.run_blocked ⟨.syntactic, by decide, by decide⟩
  obtain ⟨hgenerate, hlower⟩ := not_generated target hresolve.2 rfl rfl
  rw [compile_all, (scanned source).1, hparse, hresolve.1, hgenerate, hlower]
  rfl

theorem diagnostics_of_scope_error {e : ScopeError} (hp : Program.ofSource source = .ok p)
    (ht : p.analyze = .error e) (target : Target) :
    (compile source .all target).value.diagnostics = (SourceError.scope e).diagnostics := by
  obtain ⟨hresolve, hnext⟩ := not_resolved hp ht
  obtain ⟨hgenerate, hlower⟩ := not_generated target hnext rfl rfl
  rw [compile_all, (scanned source).1, (parsed hp).1, hresolve, hgenerate, hlower]
  rfl

theorem compile_of_lowered {target : Target} {text : String} (hp : Program.ofSource source = .ok p)
    (ht : p.analyze = .ok t) (hl : (target.lower p.code).value = .ok text) :
    (compile source .all target).value =
      ⟨some (.ok (Scan.ofSource source)), some (.ok p), some (.ok t), some (.ok p.code),
        some (.ok ⟨target, text⟩)⟩ := by
  rw [compile_all, (scanned source).1, (parsed hp).1, (resolved hp ht).1, (generated hp ht).1, lowered hp ht hl]

end Report

section

variable {target : Target} {text : String} {code : List Instr}

theorem sourceCode_of_parse_error {e : ParseError} (hp : Program.ofSource source = .error e) :
    sourceCode source = .error (.parse e) := by
  unfold sourceCode
  rw [hp]
  rfl

theorem sourceCode_of_parsed (hp : Program.ofSource source = .ok p) :
    sourceCode source = (discard (p.analyze.mapError .scope) >>= fun _ => .ok p.code) := by
  unfold sourceCode
  rw [hp]
  rfl

theorem Target.build_of_error {e : BuildError} (h : sourceCode source = .error e) (target : Target) :
    (target.build source).value = .error e := by
  unfold Target.build
  rw [h]

theorem Target.build_of_ok (h : sourceCode source = .ok code) (hl : (target.lower code).value = .ok text) :
    (target.build source).value = .ok text := by
  unfold Target.build
  rw [h]
  change (target.lower code).value.mapError BuildError.code = _
  rw [hl]
  rfl

theorem Program.lower_ok (h : p.Scoped) (target : Target) : ∃ text, (target.lower p.code).value = .ok text := by
  obtain ⟨text, hrender⟩ := p.renders h target
  unfold Target.lower
  rw [hrender]
  exact ⟨_, rfl⟩

end

namespace Replay

theorem Prepared.ofSource_of_parse_error {e : ParseError} (hp : Program.ofSource source = .error e) :
    Prepared.ofSource source = .error (.parse e) := by
  unfold Prepared.ofSource
  rw [hp]
  rfl

theorem Prepared.ofSource_of_scope_error {e : ScopeError} (hp : Program.ofSource source = .ok p)
    (ht : p.analyze = .error e) : Prepared.ofSource source = .error (.scope e) := by
  unfold Prepared.ofSource
  rw [hp]
  change (p.analyze.mapError ReplayError.scope >>= _) = _
  rw [ht]
  rfl

section

variable {err : ReplayError} {q : Prepared} (requested : List Nat) (line : Option Nat) (config : Config)

theorem Session.start_of_error (h : Prepared.ofSource source = .error err) :
    Session.start source requested config = .error err := by
  unfold Session.start
  rw [h]
  rfl

theorem Session.start_of_ok (h : Prepared.ofSource source = .ok q) :
    ∃ s, Session.start source requested config = .ok s := by
  unfold Session.start
  rw [h]
  exact ⟨_, rfl⟩

theorem runTo_of_error (h : Prepared.ofSource source = .error err) : runTo source line config = .error err := by
  unfold runTo
  rw [h]
  rfl

theorem run_of_runTo_error (h : Prepared.ofSource source = .ok q) (herr : runTo source line config = .error err) :
    Machine.run q.code config (Machine.reaches line) = .error err :=
  (runTo_eq_error_iff h).mp herr

end

end Replay

/-- A replay of an accepted program fails for want of steps or in a division by zero. -/
theorem Program.run_error {J : JumpCode} {config : Config} {stop : Probe → Bool} {err : ReplayError} (h : p.Scoped)
    (hat : Block.AtAll J (procedurePaths p.declared) [] .initial p.blocks 0 J.code.size)
    (herr : Machine.run J config stop = .error err) :
    err = .stepLimit config.maxSteps ∨ ∃ line, err = .divisionByZero line := by
  rcases Reachable.initial.runFor_error herr with hlimit | ⟨m, e, hm, he, hfail⟩
  · exact .inl hlimit
  · rcases reachable_cases h hat hm with ⟨s, hend⟩ | ⟨e', he', -, hdiv⟩
    · rw [hend.code_eq_none] at he
      cases he
    · obtain rfl := Option.some.inj (he.symm.trans he')
      exact .inr (hdiv err hfail)

theorem FailsWith.of_parse_error {e : ParseError} (hp : Program.ofSource source = .error e) :
    FailsWith source (.parse e) where
  build := Target.build_of_error (sourceCode_of_parse_error hp)
  report := Report.diagnostics_of_parse_error hp
  session := fun requested config => Session.start_of_error requested config (Prepared.ofSource_of_parse_error hp)
  replay := fun line config => runTo_of_error line config (Prepared.ofSource_of_parse_error hp)

theorem FailsWith.of_scope_error {e : ScopeError} (hp : Program.ofSource source = .ok p) (ht : p.analyze = .error e) :
    FailsWith source (.scope e) := by
  have hcode : sourceCode source = .error (.scope e) := by
    rw [sourceCode_of_parsed hp, ht]
    rfl
  have hprepared := Prepared.ofSource_of_scope_error hp ht
  exact {
    build := Target.build_of_error hcode
    report := Report.diagnostics_of_scope_error hp ht
    session := fun requested config => Session.start_of_error requested config hprepared
    replay := fun line config => runTo_of_error line config hprepared }

theorem Compiles.of_accepted (hp : Program.ofSource source = .ok p) (ht : p.analyze = .ok t) : Compiles source := by
  have h := Program.scoped_of_source hp ht
  obtain ⟨J, hJ, hat⟩ := p.lowers h
  have hprepared := Prepared.ofSource_eq hp ht hJ
  have hcode : sourceCode source = .ok p.code := by
    rw [sourceCode_of_parsed hp, ht]
    rfl
  refine ⟨fun target => ?_, fun target => ?_, fun requested config => ?_, fun line config err herr => ?_⟩
  · obtain ⟨text, hl⟩ := Program.lower_ok h target
    refine ⟨text, Target.build_of_ok hcode hl, ?_⟩
    rw [Report.compile_of_lowered hp ht hl]
  · obtain ⟨text, hl⟩ := Program.lower_ok h target
    rw [Report.compile_of_lowered hp ht hl]
    rfl
  · exact Session.start_of_ok requested config hprepared
  · exact Program.run_error h hat (run_of_runTo_error line config hprepared herr)

/-- Of every source text, all routes get past the compilation or all fail with the same error. -/
theorem source_entry_points_agree (source : String) : Compiles source ∨ ∃ e, FailsWith source e := by
  cases hp : Program.ofSource source with
  | error e => exact .inr ⟨.parse e, .of_parse_error hp⟩
  | ok p =>
    cases ht : p.analyze with
    | error e => exact .inr ⟨.scope e, .of_scope_error hp ht⟩
    | ok t => exact .inl (.of_accepted hp ht)

end PLZero
