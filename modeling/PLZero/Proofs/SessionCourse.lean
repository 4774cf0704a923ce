import PLZero.Proofs.Lowered
import PLZero.Proofs.Moves
import PLZero.Replay.Session
import Mathlib.Data.List.Find
import Mathlib.Data.List.TakeWhile

/-! Debug sessions against the one uninterrupted run of their program. The course of a run lists every place
where it could stop, with the state there. A command stops at the first place ahead that it asks for, and
where there is none the session ends as the run does. -/

namespace PLZero

namespace Replay

/-- A place where a run can stop: the state just before a step, and the line of the step. -/
structure Visit where
  machine : Machine
  line : Nat

namespace Visit

def probe (v : Visit) : Probe := v.machine.probe v.line

def snapshot (p : Prepared) (v : Visit) : Snapshot := p.snapshot v.machine (some v.line)

end Visit

/-- A run that is not interrupted: its visits in order, and the state it ends in or why it fails. -/
structure Course where
  visits : List Visit
  ending : Except ReplayError Machine

namespace Machine

/-- The visit before the step `e`; steps that have no line cannot be stopped at. -/
def visits (m : Machine) (e : Exec) : List Visit := (e.line.map (Visit.mk m)).toList

/-- The course of a run by at most `fuel` steps out of `limit`. -/
def courseFor (p : JumpCode) (readValue : Int32) (limit : Nat) (fuel : Nat) (m : Machine) : Course :=
  match p.code[m.pc]? with
  | none => ⟨[], .ok m⟩
  | some e =>
    match fuel with
    | 0 => ⟨m.visits e, .error (.stepLimit limit)⟩
    | fuel + 1 =>
      match execute p readValue (m.count e) e with
      | .ok m' =>
        let rest := courseFor p readValue limit fuel m'
        ⟨m.visits e ++ rest.visits, rest.ending⟩
      | .error err => ⟨m.visits e, .error err⟩

def course (m : Machine) (p : JumpCode) (config : Config) : Course :=
  courseFor p config.readValue config.maxSteps (config.maxSteps - m.steps) m

end Machine

namespace Course

/-- The first visit that `stop` takes, or the end. -/
def stopped (c : Course) (stop : Probe → Bool) : Except ReplayError (Option Probe × Machine) :=
  match c.visits.find? (stop ·.probe) with
  | some v => .ok (some v.probe, v.machine)
  | none => c.ending.map (none, ·)

/-- How far a session has come. -/
inductive Position
  | start
  | paused (here : Visit) (later : List Visit)
  | ended (last : Snapshot)

end Course

/-- Whether a command given at a pause asks for a probe further on; without a pause nothing has run. -/
def Command.asks (breakpoints : List Nat) (pause : Option Visit) : Command → Probe → Bool
  | .continue, probe => probe.boundary && probe.line ∈ breakpoints
  | .stepOver, probe => pause.all fun here => probe.boundary && probe.depth ≤ here.probe.depth

namespace Course

/-- Goes on to the first of the visits `ahead` that is asked for. A session whose run fails answers with the
failure and keeps the snapshot it has `shown`. -/
def advance (c : Course) (p : Prepared) (ahead : List Visit) (asks : Probe → Bool) (shown : Snapshot) :
    Position × Except ReplayError Event :=
  match ahead.dropWhile fun v => !asks v.probe with
  | v :: later => (.paused v later, .ok (.paused (v.snapshot p)))
  | [] =>
    match c.ending with
    | .ok m => (.ended (p.snapshot m none), .ok (.finished (p.snapshot m none)))
    | .error err => (.ended shown, .error err)

def answer (c : Course) (p : Prepared) (breakpoints : List Nat) :
    Position → Command → Position × Except ReplayError Event
  | .start, command => c.advance p c.visits (command.asks breakpoints none) (p.snapshot .initial none)
  | .paused here later, command => c.advance p later (command.asks breakpoints (some here)) (here.snapshot p)
  | .ended last, _ => (.ended last, .ok (.finished last))

/-- What a session answers to commands given one after the other. -/
def answers (c : Course) (p : Prepared) (breakpoints : List Nat) :
    Position → List Command → List (Except ReplayError Event)
  | _, [] => []
  | pos, command :: commands =>
    let (pos', result) := c.answer p breakpoints pos command
    result :: c.answers p breakpoints pos' commands

/-- The visits that enter a breakpoint line. -/
def entries (c : Course) (breakpoints : List Nat) : List Visit :=
  c.visits.filter fun v => v.probe.boundary && v.line ∈ breakpoints

end Course

def Session.answers (s : Session) : List Command → List (Except ReplayError Event)
  | [] => []
  | command :: commands => (s.command command).result :: (s.command command).session.answers commands

section

variable {p : JumpCode} {readValue : Int32} {config : Config} {limit : Nat} {m m' : Machine} {e : Exec}
  {stop : Probe → Bool} {v : Visit} {later : List Visit}

theorem stopAt_eq (m : Machine) (e : Exec) (stop : Probe → Bool) :
    m.stopAt stop e = ((m.visits e).find? (stop ·.probe)).map (·.probe) := by
  unfold Machine.stopAt Machine.visits
  cases e.line with
  | none => rfl
  | some line =>
    by_cases h : stop (m.probe line) = true
    · simp [h, Visit.probe]
    · simp [h, Visit.probe]

theorem machine_of_find? (h : (m.visits e).find? (stop ·.probe) = some v) : v.machine = m := by
  have hv := List.mem_of_find?_eq_some h
  rw [Machine.visits, Option.mem_toList, Option.map_eq_some_iff] at hv
  obtain ⟨line, -, rfl⟩ := hv
  rfl

/-- A run that can stop follows the course of the run that cannot. -/
theorem runFor_eq_stopped (p : JumpCode) (readValue : Int32) (stop : Probe → Bool) (limit fuel : Nat) (m : Machine) :
    Machine.runFor p readValue stop limit fuel m = (Machine.courseFor p readValue limit fuel m).stopped stop := by
  induction fuel generalizing m with
  | zero =>
    rw [Machine.runFor.eq_def, Machine.courseFor.eq_def]
    cases hcode : p.code[m.pc]? with
    | none => rfl
    | some e =>
      simp only [stopAt_eq, Course.stopped]
      cases hfind : (m.visits e).find? (stop ·.probe) with
      | none => rfl
      | some v => simp [machine_of_find? hfind]
  | succ fuel ih =>
    rw [Machine.runFor.eq_def, Machine.courseFor.eq_def]
    cases hcode : p.code[m.pc]? with
    | none => rfl
    | some e =>
      simp only [stopAt_eq, Course.stopped]
      cases hstep : Machine.execute p readValue (m.count e) e with
      | error err =>
        cases hfind : (m.visits e).find? (stop ·.probe) with
        | none => rfl
        | some v => simp [machine_of_find? hfind]
      | ok m' =>
        simp only [List.find?_append]
        cases hfind : (m.visits e).find? (stop ·.probe) with
        | none => exact ih m'
        | some v => simp [machine_of_find? hfind]

theorem resume_eq_stopped (m : Machine) (p : JumpCode) (config : Config) (stop : Probe → Bool) :
    m.resume p config stop = (m.course p config).stopped stop :=
  runFor_eq_stopped ..

/-- A course begins with the end of the code, or with the visit before one step. -/
theorem courseFor_cases (p : JumpCode) (readValue : Int32) (limit fuel : Nat) (m : Machine) :
    Machine.courseFor p readValue limit fuel m = ⟨[], .ok m⟩ ∨
      ∃ e rest, Machine.courseFor p readValue limit fuel m = ⟨m.visits e ++ rest.visits, rest.ending⟩ ∧
        (rest.visits = [] ∨ ∃ m' fuel', fuel = fuel' + 1 ∧ m'.steps = m.steps + 1 ∧
          rest = Machine.courseFor p readValue limit fuel' m') := by
  rw [Machine.courseFor.eq_def]
  cases p.code[m.pc]? with
  | none => exact .inl rfl
  | some e =>
    right
    cases fuel with
    | zero => exact ⟨e, ⟨[], .error (.stepLimit limit)⟩, by simp, .inl rfl⟩
    | succ fuel =>
      cases hstep : Machine.execute p readValue (m.count e) e with
      | error err => exact ⟨e, ⟨[], .error err⟩, by simp [hstep], .inl rfl⟩
      | ok m' => exact ⟨e, _, by simp only [hstep], .inr ⟨m', fuel, rfl, (execute_moves hstep).2.1, rfl⟩⟩

/-- Behind a visit the course is that of the run from there, and its steps are counted on. -/
theorem courseFor_suffix {fuel : Nat} {before : List Visit}
    (hfuel : fuel = config.maxSteps - m.steps)
    (h : (Machine.courseFor p config.readValue config.maxSteps fuel m).visits = before ++ v :: later) :
    m.steps ≤ v.machine.steps ∧ (before ≠ [] → m.steps < v.machine.steps) ∧ v.machine.course p config =
      ⟨v :: later, (Machine.courseFor p config.readValue config.maxSteps fuel m).ending⟩ := by
  induction fuel using Nat.strong_induction_on generalizing m before with
  | _ fuel ih =>
    rcases courseFor_cases p config.readValue config.maxSteps fuel m with hend | ⟨e, rest, hcourse, hrest⟩
    · rw [hend] at h
      exact absurd h (by simp)
    -- what is behind the first step is the course of a state with one step more
    have hlater {before : List Visit} (hb : rest.visits = before ++ v :: later) :
        m.steps < v.machine.steps ∧ v.machine.course p config = ⟨v :: later, rest.ending⟩ := by
      rcases hrest with hnil | ⟨m', fuel', rfl, hsteps, rfl⟩
      · exact absurd (hnil.symm.trans hb) (by simp)
      · obtain ⟨hle, -, hv⟩ := ih fuel' (Nat.lt_succ_self _) (by omega) hb
        exact ⟨by omega, hv⟩
    have hvisits : m.visits e ++ rest.visits = before ++ v :: later := by rw [← h, hcourse]
    cases hline : e.line with
    | none =>
      simp only [Machine.visits, hline, Option.map_none, Option.toList_none, List.nil_append] at hvisits
      obtain ⟨hlt, hv⟩ := hlater hvisits
      exact ⟨hlt.le, fun _ => hlt, by rw [hv, hcourse]⟩
    | some line =>
      simp only [Machine.visits, hline, Option.map_some, Option.toList_some, List.singleton_append] at hvisits
      cases before with
      | nil =>
        obtain ⟨rfl, rfl⟩ := List.cons.inj hvisits
        refine ⟨le_rfl, fun hne => absurd rfl hne, ?_⟩
        rw [Machine.course, ← hfuel, hcourse]
        simp [Machine.visits, hline]
      | cons b before =>
        obtain ⟨hlt, hv⟩ := hlater (List.cons.inj hvisits).2
        exact ⟨hlt.le, fun _ => hlt, by rw [hv, hcourse]⟩

theorem course_suffix {before : List Visit}
    (h : (m.course p config).visits = before ++ v :: later) :
    v.machine.course p config = ⟨v :: later, (m.course p config).ending⟩ :=
  (courseFor_suffix rfl h).2.2

theorem steps_lt_of_mem {w : Visit} (h : (v.machine.course p config).visits = v :: later)
    (hw : w ∈ later) : v.machine.steps < w.machine.steps := by
  obtain ⟨before, rest, rfl⟩ := List.append_of_mem hw
  have hsplit : (v.machine.course p config).visits = (v :: before) ++ w :: rest := h
  exact (courseFor_suffix rfl hsplit).2.1 (List.cons_ne_nil v before)

theorem ending_eq_run (p : JumpCode) (config : Config) :
    (Machine.initial.course p config).ending = (Machine.run p config fun _ => false).map (·.2) := by
  have hnone : (Machine.initial.course p config).visits.find? (fun _ => false) = none := by simp
  rw [Machine.run, resume_eq_stopped, Course.stopped, hnone]
  cases (Machine.initial.course p config).ending with
  | ok m => rfl
  | error err => rfl

end

def Session.course (s : Session) : Course := Machine.initial.course s.program.code s.config

/-- The session stands at this position of its course. -/
def Session.Stands (s : Session) : Course.Position → Prop
  | .start => s.status = .running ∧ s.pausedAt = none ∧ s.machine = .initial ∧
    s.current = s.program.snapshot .initial none
  | .paused here later => s.status = .paused ∧ s.pausedAt = some ⟨here.probe.steps, here.probe.depth⟩ ∧
    s.machine.course s.program.code s.config = ⟨here :: later, s.course.ending⟩ ∧
    s.machine = here.machine ∧ s.current = here.snapshot s.program
  | .ended last => s.status = .finished ∧ s.current = last

section

variable {s : Session} {pos : Course.Position} {command : Command}

/-- Goes on from a place in the course, where the visits `passed` are not asked for any more. -/
theorem command_advance {asks : Probe → Bool} {ahead : List Visit} (passed : List Visit) (hs : s.status ≠ .finished)
    (hcourse : s.machine.course s.program.code s.config = ⟨passed ++ ahead, s.course.ending⟩)
    (hpassed : ∀ v ∈ passed, s.wants command v.probe = false)
    (hask : ∀ v ∈ ahead, s.wants command v.probe = asks v.probe) :
    (s.command command).result = (s.course.advance s.program ahead asks s.current).2 ∧
      (s.command command).session.Stands (s.course.advance s.program ahead asks s.current).1 := by
  have hfind : (passed ++ ahead).find? (s.wants command ·.probe) =
      (ahead.dropWhile fun v => !asks v.probe).head? := by
    have hnone : passed.find? (s.wants command ·.probe) = none :=
      List.find?_eq_none.mpr fun v hv => by simp [hpassed v hv]
    rw [List.find?_append, hnone, Option.none_or, ← List.find?_eq_head?_dropWhile_not]
    exact List.find?_congr hask
  have hrun := resume_eq_stopped s.machine s.program.code s.config (s.wants command)
  rw [hcourse, Course.stopped, hfind] at hrun
  rw [Session.command, if_neg hs, hrun, Course.advance]
  cases hdrop : ahead.dropWhile fun v => !asks v.probe with
  | cons v later =>
    refine ⟨rfl, rfl, rfl, ?_, rfl, rfl⟩
    have hsplit : passed ++ ahead = (passed ++ ahead.takeWhile fun v => !asks v.probe) ++ v :: later := by
      rw [List.append_assoc, ← hdrop, List.takeWhile_append_dropWhile]
    have hv := course_suffix (m := s.machine) (by rw [hcourse, hsplit])
    rw [hcourse] at hv
    exact hv
  | nil =>
    cases hend : s.course.ending with
    | ok m => exact ⟨rfl, rfl, rfl⟩
    | error err => exact ⟨rfl, rfl, rfl⟩

/-- One command takes a session from its position to the one that the course gives. -/
theorem command_stands (command : Command) (h : s.Stands pos) :
    (s.command command).result = (s.course.answer s.program s.breakpoints pos command).2 ∧
      (s.command command).session.Stands (s.course.answer s.program s.breakpoints pos command).1 := by
  cases pos with
  | start =>
    obtain ⟨hstatus, hpause, hmachine, hcurrent⟩ := h
    rw [Course.answer, ← hcurrent]
    refine command_advance [] (by simp [hstatus]) ?_ (by simp) fun v _ => ?_
    · rw [hmachine]
      rfl
    · cases command <;> simp [Session.wants, Command.asks, hpause]
  | paused here later =>
    obtain ⟨hstatus, hpause, hcourse, hmachine, hcurrent⟩ := h
    rw [Course.answer, ← hcurrent]
    refine command_advance [here] (by simp [hstatus]) hcourse ?_ fun v hv => ?_
    · rw [List.forall_mem_singleton]
      cases command <;> simp [Session.wants, hpause]
    · have hlt : here.probe.steps < v.probe.steps := steps_lt_of_mem (by rw [← hmachine, hcourse]) hv
      cases command <;> simp [Session.wants, Command.asks, hpause, hlt]
  | ended last =>
    obtain ⟨hstatus, hcurrent⟩ := h
    rw [Session.command, if_pos hstatus, Course.answer, hcurrent]
    exact ⟨rfl, hstatus, hcurrent⟩

theorem command_program (s : Session) (command : Command) :
    (s.command command).session.program = s.program ∧ (s.command command).session.breakpoints = s.breakpoints ∧
      (s.command command).session.config = s.config := by
  unfold Session.command
  split
  · exact ⟨rfl, rfl, rfl⟩
  · split <;> exact ⟨rfl, rfl, rfl⟩

theorem answers_eq (commands : List Command) (h : s.Stands pos) :
    s.answers commands = s.course.answers s.program s.breakpoints pos commands := by
  induction commands generalizing s pos with
  | nil => rfl
  | cons command commands ih =>
    obtain ⟨hresult, hstands⟩ := command_stands command h
    obtain ⟨hp, hb, hc⟩ := command_program s command
    have hcourse : (s.command command).session.course = s.course := by
      rw [Session.course, hp, hc, Session.course]
    rw [Session.answers, Course.answers, hresult, ih hstands, hcourse, hp, hb]

end

section

variable {c : Course} {p : Prepared} {breakpoints : List Nat}

theorem filter_cases {α : Type} (q : α → Bool) (l : List α) :
    (l.dropWhile (fun a => !q a) = [] ∧ l.filter q = []) ∨
      ∃ a later, l.dropWhile (fun a => !q a) = a :: later ∧ l.filter q = a :: later.filter q := by
  induction l with
  | nil => exact .inl ⟨rfl, rfl⟩
  | cons a l ih =>
    by_cases ha : q a = true
    · exact .inr ⟨a, l, by simp [ha], by simp [ha]⟩
    · simpa [ha] using ih

/-- From a position with the visits `ahead`, continuing pauses at each entry among them in turn, and then ends
as the run does. -/
theorem answers_continue {pos : Course.Position} {ahead entries : List Visit} {shown : Snapshot}
    (hentries : ahead.filter (Command.continue.asks breakpoints none ·.probe) = entries)
    (h : c.answer p breakpoints pos .continue = c.advance p ahead (Command.continue.asks breakpoints none) shown) :
    c.answers p breakpoints pos (List.replicate (entries.length + 1) .continue) =
      entries.map (fun v => .ok (.paused (v.snapshot p))) ++ [c.ending.map fun m => .finished (p.snapshot m none)] := by
  induction entries generalizing pos ahead shown with
  | nil =>
    rcases filter_cases (Command.continue.asks breakpoints none ·.probe) ahead with
      ⟨hdrop, -⟩ | ⟨v, later, -, hfilter⟩
    · rw [List.length_nil, List.replicate_one, Course.answers, h, Course.advance, hdrop]
      cases c.ending with
      | ok m => rfl
      | error err => rfl
    · cases hfilter.symm.trans hentries
  | cons v entries ih =>
    rcases filter_cases (Command.continue.asks breakpoints none ·.probe) ahead with
      ⟨-, hfilter⟩ | ⟨v', later, hdrop, hfilter⟩
    · cases hfilter.symm.trans hentries
    · obtain ⟨rfl, hlater⟩ := List.cons.inj (hfilter.symm.trans hentries)
      rw [List.length_cons, List.replicate_succ, Course.answers, h, Course.advance, hdrop]
      exact congrArg (_ :: ·) (ih hlater rfl)

end

section

variable {line : Nat} {ns : List Nat}

theorem mem_insertSorted {n : Nat} : line ∈ insertSorted n ns ↔ line = n ∨ line ∈ ns := by
  induction ns with
  | nil => simp [insertSorted]
  | cons m ns ih =>
    unfold insertSorted
    split
    · rw [List.mem_cons]
    · split
      · next h => simp [h]
      · rw [List.mem_cons, ih, List.mem_cons, or_left_comm]

theorem pairwise_insertSorted {n : Nat} (h : ns.Pairwise (· < ·)) :
    (insertSorted n ns).Pairwise (· < ·) := by
  induction ns with
  | nil => simp [insertSorted]
  | cons m ns ih =>
    obtain ⟨hm, hns⟩ := List.pairwise_cons.mp h
    unfold insertSorted
    split
    · next hlt =>
      refine List.pairwise_cons.mpr ⟨fun line hline => ?_, h⟩
      rcases List.mem_cons.mp hline with rfl | hline
      · exact hlt
      · exact hlt.trans (hm line hline)
    · split
      · exact h
      · refine List.pairwise_cons.mpr ⟨fun line hline => ?_, ih hns⟩
        rcases mem_insertSorted.mp hline with rfl | hline
        · omega
        · exact hm line hline

theorem mem_sortedSet : line ∈ sortedSet ns ↔ line ∈ ns := by
  unfold sortedSet
  induction ns with
  | nil => simp
  | cons n ns ih => rw [List.foldr_cons, mem_insertSorted, ih, List.mem_cons]

theorem pairwise_sortedSet (ns : List Nat) : (sortedSet ns).Pairwise (· < ·) := by
  unfold sortedSet
  induction ns with
  | nil => exact .nil
  | cons n ns ih => exact pairwise_insertSorted ih

/-- A breakpoint is the first line that holds a step, from a requested line on. -/
theorem mem_snap {lines requested : List Nat} :
    line ∈ Session.snap lines requested ↔
      ∃ r ∈ requested, r ≤ line ∧ line ∈ lines ∧ ∀ other ∈ lines, r ≤ other → line ≤ other := by
  have hfind (r : Nat) : (sortedSet lines).find? (r ≤ ·) = some line ↔
      r ≤ line ∧ line ∈ lines ∧ ∀ other ∈ lines, r ≤ other → line ≤ other := by
    have hsorted := pairwise_sortedSet lines
    rw [List.find?_eq_some_iff_append]
    constructor
    · rintro ⟨hr, before, behind, hsplit, hbefore⟩
      refine ⟨by simpa using hr, mem_sortedSet.mp (by simp [hsplit]), fun other hother hle => ?_⟩
      rw [← mem_sortedSet, hsplit, List.mem_append, List.mem_cons] at hother
      rcases hother with hmem | rfl | hmem
      · exact absurd hle (by simpa using hbefore other hmem)
      · exact le_rfl
      · rw [hsplit] at hsorted
        exact ((List.pairwise_cons.mp (List.pairwise_append.mp hsorted).2.1).1 other hmem).le
    · rintro ⟨hr, hmem, hleast⟩
      obtain ⟨before, behind, hsplit⟩ := List.append_of_mem (mem_sortedSet.mpr hmem)
      refine ⟨by simpa using hr, before, behind, hsplit, fun other hother => ?_⟩
      rw [hsplit] at hsorted
      have hlt := (List.pairwise_append.mp hsorted).2.2 other hother line List.mem_cons_self
      have hlines : other ∈ lines := mem_sortedSet.mp (by simp [hsplit, hother])
      have hge := hleast other hlines
      simp only [Bool.not_eq_true', decide_eq_false_iff_not]
      omega
  simp only [Session.snap, mem_sortedSet, List.mem_filterMap, hfind]

end

/-- Before anything has run only constants have a value. -/
theorem snapshot_initial (p : Prepared) : p.snapshot .initial none = ⟨p.symbols.unassigned, none, []⟩ := by
  have hvalue : (fun (path : List String) (name : String) (_ : Option Int32) =>
      Machine.initial.variable p.code path name) = fun _ _ _ => none := by
    funext path name init
    unfold Machine.variable
    split
    · rfl
    · cases p.code.number? (dotted path) with
      | none => rfl
      | some n => rfl
  rw [Prepared.snapshot, hvalue]
  rfl

theorem start_stands {source : String} {q : Prepared} (h : Prepared.ofSource source = .ok q) (requested : List Nat)
    (config : Config) : ∃ s, Session.start source requested config = .ok s ∧ s.program = q ∧
      s.breakpoints = Session.snap q.code.lines requested ∧ s.config = config ∧ s.Stands .start := by
  rw [Session.start, h]
  exact ⟨_, rfl, rfl, rfl, rfl, rfl, rfl, rfl, (snapshot_initial q).symm⟩

end Replay

namespace Program

open Replay

/-- The answers of a session are those of the one uninterrupted run of its program. Breakpoints stand on the
first line with a step from each requested line on; a command pauses at the first visit ahead that it asks
for, with the state of the run there; continuing pauses at every entry into a breakpoint line once and in
the order of the run. A command goes on from where the last one paused, which is the same as replaying the
program from its start up to the pause (`Sound.resume_eq_run`). -/
theorem session_follows_course {source : String} {p : Program} {t : Table} (hp : Program.ofSource source = .ok p)
    (ht : p.analyze = .ok t) (requested : List Nat) (config : Config) :
    ∃ J s, JumpCode.ofCode p.code = .ok J ∧ Session.start source requested config = .ok s ∧
      (∀ line, line ∈ s.breakpoints ↔
        ∃ r ∈ requested, r ≤ line ∧ line ∈ J.lines ∧ ∀ other ∈ J.lines, r ≤ other → line ≤ other) ∧
      let course := Machine.initial.course J config
      course.ending = (Machine.run J config fun _ => false).map (·.2) ∧
      (∀ commands, s.answers commands = course.answers ⟨J, t⟩ s.breakpoints .start commands) ∧
      s.answers (List.replicate ((course.entries s.breakpoints).length + 1) .continue) =
        (course.entries s.breakpoints).map (fun v => .ok (.paused (v.snapshot ⟨J, t⟩))) ++
          [course.ending.map fun m => .finished (Prepared.snapshot ⟨J, t⟩ m none)] := by
  obtain ⟨J, hJ, -⟩ := p.lowers (Program.scoped_of_source hp ht)
  obtain ⟨s, hs, hprogram, hbreakpoints, hconfig, hstands⟩ :=
    start_stands (Prepared.ofSource_eq hp ht hJ) requested config
  have hanswers (commands : List Command) : s.answers commands =
      (Machine.initial.course J config).answers ⟨J, t⟩ s.breakpoints .start commands := by
    rw [answers_eq commands hstands, Session.course, hprogram, hconfig]
  refine ⟨J, s, hJ, hs, fun line => ?_, ending_eq_run J config, hanswers, ?_⟩
  · rw [hbreakpoints, mem_snap]
  · rw [hanswers]
    exact answers_continue rfl rfl

/-- A loop that runs twice, continued from a breakpoint on the line of its body. -/
theorem session_follows_course_loop : ∃ p t J s,
    Program.ofSource "var n;\nn := 2;\nwhile n > 0 do\n  n := n - 1;\nendwhile;" = .ok p ∧ p.analyze = .ok t ∧
      JumpCode.ofCode p.code = .ok J ∧
      Session.start "var n;\nn := 2;\nwhile n > 0 do\n  n := n - 1;\nendwhile;" [4] ⟨1, 100⟩ = .ok s ∧
      (s.answers (List.replicate 3 .continue)).map (fun r => r.toOption.map fun e =>
          (e.name, e.snapshot.line, e.snapshot.value "n")) =
        [some ("paused", some 4, some 2), some ("paused", some 4, some 1), some ("finished", none, some 0)] := by
  obtain ⟨p, t, J, s, hp, ht, hJ, hs, hcourse⟩ : ∃ p t J s,
      Program.ofSource "var n;\nn := 2;\nwhile n > 0 do\n  n := n - 1;\nendwhile;" = .ok p ∧ p.analyze = .ok t ∧
        JumpCode.ofCode p.code = .ok J ∧
        Session.start "var n;\nn := 2;\nwhile n > 0 do\n  n := n - 1;\nendwhile;" [4] ⟨1, 100⟩ = .ok s ∧
        (Course.answers (Machine.initial.course J ⟨1, 100⟩) ⟨J, t⟩ s.breakpoints .start
            (List.replicate 3 .continue)).map (fun r => r.toOption.map fun e =>
              (e.name, e.snapshot.line, e.snapshot.value "n")) =
          [some ("paused", some 4, some 2), some ("paused", some 4, some 1), some ("finished", none, some 0)] :=
    ⟨_, _, _, _, rfl, rfl, rfl, rfl, by decide +kernel⟩
  obtain ⟨J', s', hJ', hs', -, -, hanswers, -⟩ := session_follows_course hp ht [4] ⟨1, 100⟩
  obtain rfl := Except.ok.inj (hJ.symm.trans hJ')
  obtain rfl := Except.ok.inj (hs.symm.trans hs')
  exact ⟨p, t, J, s, hp, ht, hJ, hs, by rw [hanswers]; exact hcourse⟩

end Program

end PLZero
