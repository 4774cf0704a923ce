import PLZero.Compile.Report

/-! A report for some of the stages is the report for all of them with the other slots left out: what a stage
comes to, or what keeps it from running, does not depend on which stages were asked for. -/

namespace PLZero

/-- A stage is in the closure if it or a later one is in the set. -/
theorem StageSet.closure_eq (s : StageSet) : s.closure =
    ⟨s.lexical || s.syntactic || s.semantic || s.intermediate || s.target,
      s.syntactic || s.semantic || s.intermediate || s.target,
      s.semantic || s.intermediate || s.target, s.intermediate || s.target, s.target⟩ := by
  obtain ⟨lexical, syntactic, semantic, intermediate, target⟩ := s
  revert lexical syntactic semantic intermediate target
  decide

theorem StageSet.contains_closure {s : StageSet} {stage : Stage} (h : s.contains stage = true) :
    s.closure.contains stage = true := by
  rw [closure_eq]
  cases stage <;> simp_all [contains]

theorem StageSet.closure_prerequisites {s : StageSet} {stage earlier : Stage}
    (h : s.closure.contains stage = true) (he : earlier ∈ stage.prerequisites) :
    s.closure.contains earlier = true := by
  rw [closure_eq] at h ⊢
  cases stage <;> cases earlier <;> simp_all [contains, Stage.prerequisites] <;> grind

@[simp]
theorem StageSet.contains_all (stage : Stage) : StageSet.all.contains stage = true := by
  cases stage <;> rfl

namespace Progress

variable {α : Type} {needed : StageSet} {p q : Progress} {stage next : Stage} {body body' : Unit → Traced (Outcome α)}

/-- What a stage that is needed comes to. -/
def result (p : Progress) (stage : Stage) (body : Unit → Traced (Outcome α)) : Traced (Outcome α) :=
  match p.blocker stage with
  | some b => ⟨.error (.blocked b), []⟩
  | none => body ()

theorem run_of_needed (h : p.needed.contains stage = true) :
    p.run stage body = (some (p.result stage body).value, p.record stage (p.result stage body)) :=
  if_pos h

theorem run_of_not_needed (h : p.needed.contains stage = false) : p.run stage body = (none, p) := by
  unfold run
  rw [h]
  rfl

theorem record_needed (result : Traced (Outcome α)) : (p.record stage result).needed = p.needed := by
  unfold record
  split <;> rfl

theorem run_needed : (p.run stage body).2.needed = p.needed := by
  unfold run
  split
  · exact record_needed _
  · rfl

/-- A compilation that needs some stages beside one that needs all: if the first needs this stage, then both
have come as far. -/
structure Abreast (needed : StageSet) (p q : Progress) (stage : Stage) : Prop where
  part : p.needed = needed
  whole : q.needed = .all
  reached : needed.contains stage = true → p.succeeded = q.succeeded ∧ p.firstFailure = q.firstFailure

theorem result_congr (hs : p.succeeded = q.succeeded) (hf : p.firstFailure = q.firstFailure) :
    p.result stage body = q.result stage body := by
  unfold result blocker
  rw [hs, hf]

theorem record_congr (hs : p.succeeded = q.succeeded) (hf : p.firstFailure = q.firstFailure)
    (result : Traced (Outcome α)) :
    (p.record stage result).succeeded = (q.record stage result).succeeded ∧
      (p.record stage result).firstFailure = (q.record stage result).firstFailure := by
  unfold record
  split
  · exact ⟨congrArg (·.insert stage) hs, hf⟩
  · exact ⟨hs, congrArg (·.or (some stage)) hf⟩

/-- A stage of both and the way on to the next: the first runs it as the second does, or leaves it out. -/
structure Restricts (needed : StageSet) (stage next : Stage) (r r' : Option (Outcome α) × Progress) : Prop where
  slot : r.1 = if needed.contains stage then r'.1 else none
  reported : r'.1.isSome = true
  abreast : Abreast needed r.2 r'.2 next

theorem Restricts.slot_of_needed {r r' : Option (Outcome α) × Progress} (h : Restricts needed stage next r r')
    (hn : needed.contains stage = true) : r.1 = r'.1 := by
  rw [h.slot, if_pos hn]

theorem Abreast.run (h : Abreast needed p q stage)
    (hnext : needed.contains next = true → needed.contains stage = true)
    (hbody : needed.contains stage = true → body = body') :
    Restricts needed stage next (p.run stage body) (q.run stage body') := by
  obtain ⟨rfl, hwhole, hreached⟩ := h
  have hq : q.needed.contains stage = true := by rw [hwhole, StageSet.contains_all]
  have hsome : (q.run stage body').1.isSome = true := by rw [run_of_needed hq]; rfl
  have hneeded : (q.run stage body').2.needed = .all := by rw [run_needed, hwhole]
  by_cases hp : p.needed.contains stage = true
  · obtain ⟨hs, hf⟩ := hreached hp
    obtain rfl := hbody hp
    refine ⟨?_, hsome, run_needed, hneeded, fun _ => ?_⟩
    · rw [run_of_needed hp, run_of_needed hq, if_pos hp, result_congr hs hf]
    · rw [run_of_needed hp, run_of_needed hq, result_congr hs hf]
      exact record_congr hs hf _
  · -- the two part here, and the first needs no later stage
    refine ⟨?_, hsome, run_needed, hneeded, fun hn => absurd (hnext hn) hp⟩
    rw [if_neg hp, run_of_not_needed (Bool.not_eq_true _ ▸ hp)]

end Progress

namespace Report

section

variable (needed : StageSet) (source : String) (target : Target)

/-! A compilation stage by stage: the slot of each, and how far it has come. -/

def scanning : Option (Outcome Scan) × Progress :=
  (⟨needed, .empty, none, []⟩ : Progress).run .lexical fun () =>
    ⟨.ok (Scan.ofSource source), (Scan.ofSource source).trace⟩

def parsing : Option (Outcome Program) × Progress :=
  (scanning needed source).2.run .syntactic fun () =>
    given .lexical (scanning needed source).1 fun scan => ⟨(Program.ofTokens scan.tokens).mapError .parse, []⟩

def resolving : Option (Outcome Table) × Progress :=
  (parsing needed source).2.run .semantic fun () =>
    given .syntactic (parsing needed source).1 fun program => ⟨program.analyze.mapError .scope, []⟩

def generating : Option (Outcome (List Instr)) × Progress :=
  (resolving needed source).2.run .intermediate fun () =>
    given .syntactic (parsing needed source).1 fun program =>
      given .semantic (resolving needed source).1 fun _ => ⟨.ok program.code, []⟩

def lowering : Option (Outcome TargetText) × Progress :=
  (generating needed source).2.run .target fun () =>
    given .intermediate (generating needed source).1 fun code =>
      ⟨((target.lower code).value.map (TargetText.mk target)).mapError .code, (target.lower code).trace⟩

end

open Progress

theorem compile_eq (source : String) (stages : StageSet) (target : Target) :
    (compile source stages target).value =
      { lexical := (scanning stages.closure source).1.filter fun _ => stages.contains .lexical
        syntactic := (parsing stages.closure source).1.filter fun _ => stages.contains .syntactic
        semantic := (resolving stages.closure source).1.filter fun _ => stages.contains .semantic
        intermediate := (generating stages.closure source).1.filter fun _ => stages.contains .intermediate
        target := (lowering stages.closure source target).1.filter fun _ => stages.contains .target } := by
  rfl

theorem filter_true {α : Type} (o : Option α) : (o.filter fun _ => true) = o := by
  cases o <;> rfl

theorem compile_all (source : String) (target : Target) : (compile source .all target).value =
    ⟨(scanning .all source).1, (parsing .all source).1, (resolving .all source).1, (generating .all source).1,
      (lowering .all source target).1⟩ := by
  have hclosure : StageSet.all.closure = .all := by decide
  rw [compile_eq, hclosure]
  simp only [StageSet.contains_all, filter_true]

section

variable (s : StageSet) (source : String) (target : Target)

theorem scanning_restricts :
    Restricts s.closure .lexical .syntactic (scanning s.closure source) (scanning .all source) := by
  have hstart : Abreast s.closure ⟨s.closure, .empty, none, []⟩ ⟨.all, .empty, none, []⟩ .lexical :=
    ⟨rfl, rfl, fun _ => ⟨rfl, rfl⟩⟩
  exact hstart.run (fun h => StageSet.closure_prerequisites h (by decide)) fun _ => rfl

theorem parsing_restricts :
    Restricts s.closure .syntactic .semantic (parsing s.closure source) (parsing .all source) := by
  have hscan := scanning_restricts s source
  refine hscan.abreast.run (fun h => StageSet.closure_prerequisites h (by decide)) fun h => ?_
  rw [hscan.slot_of_needed (StageSet.closure_prerequisites h (by decide))]

theorem resolving_restricts :
    Restricts s.closure .semantic .intermediate (resolving s.closure source) (resolving .all source) := by
  have hparse := parsing_restricts s source
  refine hparse.abreast.run (fun h => StageSet.closure_prerequisites h (by decide)) fun h => ?_
  rw [hparse.slot_of_needed (StageSet.closure_prerequisites h (by decide))]

theorem generating_restricts :
    Restricts s.closure .intermediate .target (generating s.closure source) (generating .all source) := by
  have hparse := parsing_restricts s source
  have hresolve := resolving_restricts s source
  refine hresolve.abreast.run (fun h => StageSet.closure_prerequisites h (by decide)) fun h => ?_
  rw [hparse.slot_of_needed (StageSet.closure_prerequisites h (by decide)),
    hresolve.slot_of_needed (StageSet.closure_prerequisites h (by decide))]

theorem lowering_restricts :
    Restricts s.closure .target .target (lowering s.closure source target) (lowering .all source target) := by
  have hgenerate := generating_restricts s source
  refine hgenerate.abreast.run id fun h => ?_
  rw [hgenerate.slot_of_needed (StageSet.closure_prerequisites h (by decide))]

end

/-- The slots of these stages only. -/
def restrict (stages : StageSet) (r : Report) : Report where
  lexical := if stages.contains .lexical then r.lexical else none
  syntactic := if stages.contains .syntactic then r.syntactic else none
  semantic := if stages.contains .semantic then r.semantic else none
  intermediate := if stages.contains .intermediate then r.intermediate else none
  target := if stages.contains .target then r.target else none

def reports (r : Report) : Stage → Bool
  | .lexical => r.lexical.isSome
  | .syntactic => r.syntactic.isSome
  | .semantic => r.semantic.isSome
  | .intermediate => r.intermediate.isSome
  | .target => r.target.isSome

/-- Every stage with its failure, if it has one. -/
def failures (r : Report) : List (Stage × Option String) :=
  [(.lexical, r.lexical.bind Outcome.diagnostic?), (.syntactic, r.syntactic.bind Outcome.diagnostic?),
    (.semantic, r.semantic.bind Outcome.diagnostic?), (.intermediate, r.intermediate.bind Outcome.diagnostic?),
    (.target, r.target.bind Outcome.diagnostic?)]

theorem diagnostics_eq (r : Report) : r.diagnostics = r.failures.filterMap fun d => d.2.map (d.1, ·) := rfl

theorem failures_restrict (stages : StageSet) (r : Report) : (r.restrict stages).failures =
    r.failures.map fun d => (d.1, if stages.contains d.1 then d.2 else none) := by
  have hslot {α : Type} (b : Bool) (o : Option (Outcome α)) :
      (if b then o else none).bind Outcome.diagnostic? = if b then o.bind Outcome.diagnostic? else none := by
    cases b <;> rfl
  simp only [failures, restrict, hslot, List.map]

theorem diagnostics_restrict (stages : StageSet) (r : Report) :
    (r.restrict stages).diagnostics = r.diagnostics.filter fun d => stages.contains d.1 := by
  rw [diagnostics_eq, diagnostics_eq, failures_restrict, List.filterMap_map, List.filter_filterMap]
  congr 1
  funext d
  cases hd : d.2 <;> cases hs : stages.contains d.1 <;> simp [Option.filter, hd, hs]

/-- What was asked for of a slot is that of the report for all stages, or nothing. -/
theorem filter_slot {α : Type} {stages : StageSet} {stage next : Stage} {r r' : Option (Outcome α) × Progress}
    (h : Restricts stages.closure stage next r r') :
    (r.1.filter fun _ => stages.contains stage) = if stages.contains stage then r'.1 else none := by
  cases hs : stages.contains stage with
  | false => simp
  | true =>
    rw [h.slot_of_needed (StageSet.contains_closure hs)]
    exact filter_true r'.1

theorem compile_eq_restrict (source : String) (stages : StageSet) (target : Target) :
    (compile source stages target).value = (compile source .all target).value.restrict stages := by
  rw [compile_eq, filter_slot (scanning_restricts stages source), filter_slot (parsing_restricts stages source),
    filter_slot (resolving_restricts stages source), filter_slot (generating_restricts stages source),
    filter_slot (lowering_restricts stages source target), compile_all]
  rfl

theorem reports_compile_all (source : String) (target : Target) (stage : Stage) :
    (compile source .all target).value.reports stage = true := by
  rw [compile_all]
  cases stage with
  | lexical => exact (scanning_restricts .all source).reported
  | syntactic => exact (parsing_restricts .all source).reported
  | semantic => exact (resolving_restricts .all source).reported
  | intermediate => exact (generating_restricts .all source).reported
  | target => exact (lowering_restricts .all source target).reported

theorem reports_restrict (stages : StageSet) (r : Report) (stage : Stage) :
    (r.restrict stages).reports stage = (stages.contains stage && r.reports stage) := by
  cases stage <;> simp only [restrict, reports] <;> split <;> simp_all

/-- The stages that were asked for have the outcomes that they have in the report for all stages. -/
theorem compile_restricts (source : String) (stages : StageSet) (target : Target) :
    (compile source stages target).value = (compile source .all target).value.restrict stages ∧
      (∀ stage, (compile source stages target).value.reports stage = stages.contains stage) ∧
      (compile source stages target).value.diagnostics =
        (compile source .all target).value.diagnostics.filter fun d => stages.contains d.1 := by
  rw [compile_eq_restrict]
  refine ⟨rfl, fun stage => ?_, diagnostics_restrict stages _⟩
  rw [reports_restrict, reports_compile_all, Bool.and_true]

end Report

end PLZero
