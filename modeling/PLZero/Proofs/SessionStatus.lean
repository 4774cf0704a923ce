import PLZero.Proofs.SessionCourse
import PLZero.Proofs.StepLimit
import Mathlib.Data.List.Induction

/-! What a session shows of itself. Its status tells what the last command answered, a command that fails leaves what is
shown as it was, and a session that has come to an end answers every command alike and changes no more. -/

namespace PLZero

namespace Replay

namespace Session

variable {answer : Except ReplayError Event}

def after (s : Session) : List Command → Session
  | [] => s
  | command :: commands => (s.command command).session.after commands

/-- The snapshot of an answer; a failure has none. -/
def shownBy (answer : Except ReplayError Event) : Option Snapshot := answer.toOption.map Event.snapshot

/-- The last snapshot that one of the commands has answered with; where none has, that of the session before them. -/
def lastShown (s : Session) (commands : List Command) : Snapshot :=
  ((s.answers commands).filterMap shownBy).getLast?.getD s.current

variable {s : Session} {c : Command} {commands : List Command}

theorem after_concat (s : Session) (commands : List Command) (c : Command) :
    s.after (commands ++ [c]) = ((s.after commands).command c).session := by
  induction commands generalizing s with
  | nil => rfl
  | cons command commands ih => exact ih _

theorem answers_concat (s : Session) (commands : List Command) (c : Command) :
    s.answers (commands ++ [c]) = s.answers commands ++ [((s.after commands).command c).result] := by
  induction commands generalizing s with
  | nil => rfl
  | cons command commands ih => exact congrArg (_ :: ·) (ih _)

theorem program_after (s : Session) (commands : List Command) : (s.after commands).program = s.program ∧
    (s.after commands).breakpoints = s.breakpoints ∧ (s.after commands).config = s.config := by
  induction commands generalizing s with
  | nil => exact ⟨rfl, rfl, rfl⟩
  | cons command commands ih =>
    obtain ⟨hp, hb, hc⟩ := command_program s command
    rw [← hp, ← hb, ← hc]
    exact ih _

/-- What a command can do: nothing once the session has ended, else to pause in front of a step whose line it asks for,
to end with the program, or to end in a failure. -/
theorem command_cases (s : Session) (c : Command) :
    (s.status = .finished ∧ s.command c = ⟨s, .ok (.finished s.current), []⟩) ∨
    s.status ≠ .finished ∧
      ((∃ m e line, s.machine.resume s.program.code s.config (s.wants c) = .ok (some (m.probe line), m) ∧
          s.program.code.code[m.pc]? = some e ∧ e.line = some line ∧ s.wants c (m.probe line) = true ∧
          s.command c = s.pause m (m.probe line)) ∨
        (∃ m, s.machine.resume s.program.code s.config (s.wants c) = .ok (none, m) ∧ s.command c = s.finish m) ∨
        ∃ err, s.command c = ⟨{ s with status := .finished }, .error err, []⟩) := by
  by_cases hs : s.status = .finished
  · exact .inl ⟨hs, by rw [command, if_pos hs]⟩
  · refine .inr ⟨hs, ?_⟩
    rw [command, if_neg hs]
    rcases hrun : s.machine.resume s.program.code s.config (s.wants c) with err | ⟨_ | probe, m⟩
    · exact .inr (.inr ⟨err, rfl⟩)
    · exact .inr (.inl ⟨m, rfl, rfl⟩)
    · obtain ⟨n, -, hends⟩ := ends_of_runFor hrun (by simp)
      obtain ⟨e, line, he, hline, rfl, hwants⟩ := hends.stopped_before
      exact .inl ⟨m, e, line, rfl, he, hline, hwants, rfl⟩

theorem pause_of_result {shown : Snapshot} (h : (s.command c).result = .ok (.paused shown)) :
    s.status ≠ .finished ∧
      ∃ m e line, s.machine.resume s.program.code s.config (s.wants c) = .ok (some (m.probe line), m) ∧
        s.program.code.code[m.pc]? = some e ∧ e.line = some line ∧ s.wants c (m.probe line) = true ∧
        s.command c = s.pause m (m.probe line) := by
  rcases s.command_cases c with ⟨-, hreply⟩ | ⟨hs, hpause | ⟨m, -, hreply⟩ | ⟨err, hreply⟩⟩
  · rw [hreply] at h
    cases h
  · exact ⟨hs, hpause⟩
  · rw [hreply] at h
    cases h
  · rw [hreply] at h
    cases h

theorem lastShown_concat (s : Session) (commands : List Command) (c : Command) :
    s.lastShown (commands ++ [c]) = (shownBy ((s.after commands).command c).result).getD (s.lastShown commands) := by
  rw [lastShown, answers_concat, List.filterMap_append]
  cases hshown : shownBy ((s.after commands).command c).result with
  | none =>
    rw [List.filterMap_cons_none hshown, List.filterMap_nil, List.append_nil]
    rfl
  | some shown =>
    rw [List.filterMap_cons_some hshown, List.filterMap_nil, List.getLast?_concat]
    rfl

theorem current_command (s : Session) (c : Command) :
    (s.command c).session.current = (shownBy (s.command c).result).getD s.current := by
  rcases s.command_cases c with
    ⟨-, hreply⟩ | ⟨-, ⟨m, e, line, -, -, -, -, hreply⟩ | ⟨m, -, hreply⟩ | ⟨err, hreply⟩⟩
  all_goals
    rw [hreply]
    rfl

/-- A session shows the snapshot of the last command that has not failed. -/
theorem current_after (s : Session) (commands : List Command) :
    (s.after commands).current = s.lastShown commands := by
  induction commands using List.reverseRecOn with
  | nil => rfl
  | append_singleton commands c ih => rw [after_concat, lastShown_concat, current_command, ih]

/-- The status that a command leaves behind with its answer. -/
def statusOf : Except ReplayError Event → Status
  | .ok (.paused _) => .paused
  | .ok (.finished _) | .error _ => .finished

theorem status_command (s : Session) (c : Command) :
    (s.command c).session.status = statusOf (s.command c).result := by
  rcases s.command_cases c with
    ⟨hs, hreply⟩ | ⟨-, ⟨m, e, line, -, -, -, -, hreply⟩ | ⟨m, -, hreply⟩ | ⟨err, hreply⟩⟩
  · rw [hreply]
    exact hs
  all_goals
    rw [hreply]
    rfl

theorem status_after (s : Session) (commands : List Command) :
    (s.after commands).status = (s.answers commands).getLast?.elim s.status statusOf := by
  induction commands using List.reverseRecOn with
  | nil => rfl
  | append_singleton commands c _ =>
    rw [after_concat, answers_concat, List.getLast?_concat, status_command]
    rfl

theorem command_of_finished (hs : s.status = .finished) (c : Command) :
    s.command c = ⟨s, .ok (.finished s.current), []⟩ := by
  rw [command, if_pos hs]

theorem finished_of_answer (hmem : answer ∈ s.answers commands)
    (hanswer : statusOf answer = .finished) : (s.after commands).status = .finished := by
  induction commands using List.reverseRecOn with
  | nil => cases hmem
  | append_singleton commands c ih =>
    rw [answers_concat, List.mem_append, List.mem_singleton] at hmem
    rw [after_concat]
    rcases hmem with hmem | rfl
    · rw [command_of_finished (ih hmem)]
      exact ih hmem
    · rw [status_command, hanswer]

theorem statusOf_eq_paused_iff :
    statusOf answer = .paused ↔ ∃ shown, answer = .ok (.paused shown) := by
  constructor
  · intro h
    unfold statusOf at h
    split at h
    · exact ⟨_, rfl⟩
    · cases h
    · cases h
  · rintro ⟨shown, rfl⟩
    rfl

theorem statusOf_eq_finished_iff :
    statusOf answer = .finished ↔ ∀ shown, answer ≠ .ok (.paused shown) := by
  rw [← not_exists, ← statusOf_eq_paused_iff]
  unfold statusOf
  split <;> simp

theorem statusOf_ne_running (answer : Except ReplayError Event) : statusOf answer ≠ .running := by
  unfold statusOf
  split <;> simp

theorem last_answer_none_iff (s : Session) (commands : List Command) :
    (s.answers commands).getLast? = none ↔ commands = [] := by
  rw [List.getLast?_eq_none_iff]
  cases commands with
  | nil => exact ⟨fun _ => rfl, fun _ => rfl⟩
  | cons c commands => exact ⟨nofun, nofun⟩

theorem command_of_error {err : ReplayError} (h : (s.command c).result = .error err) :
    (s.command c).session = { s with status := .finished } := by
  rcases s.command_cases c with
    ⟨-, hreply⟩ | ⟨-, ⟨m, e, line, -, -, -, -, hreply⟩ | ⟨m, -, hreply⟩ | ⟨err', hreply⟩⟩
  · rw [hreply] at h
    cases h
  · rw [hreply] at h
    cases h
  · rw [hreply] at h
    cases h
  · rw [hreply]

/-- At a pause the session shows the line of the step to come. -/
theorem command_of_paused {shown : Snapshot} (h : (s.command c).result = .ok (.paused shown)) :
    (s.command c).session.current = shown ∧ ∃ e line, s.program.code.code[(s.command c).session.machine.pc]? = some e ∧
      e.line = some line ∧ shown.line = some line := by
  obtain ⟨-, m, e, line, -, he, hline, -, hreply⟩ := pause_of_result h
  rw [hreply] at h ⊢
  cases h
  exact ⟨rfl, e, line, he, hline, rfl⟩

end Session

end Replay

namespace Program

open Replay

/-- The life of a session over an accepted source, behind any commands. It is running until the first command, paused
where the last command has answered with a pause, which it then shows with its line, and finished otherwise. A command
that fails changes the status alone. Behind a failure or the end of the program every command answers with the last
snapshot that was shown, and changes nothing. -/
theorem session_settles {source : String} {p : Program} {t : Table} (hp : Program.ofSource source = .ok p)
    (ht : p.analyze = .ok t) (requested : List Nat) (config : Config) :
    ∃ s, Session.start source requested config = .ok s ∧ ∀ commands,
      ((s.after commands).status = .running ↔ commands = []) ∧
      ((s.after commands).status = .paused ↔ ∃ shown, (s.answers commands).getLast? = some (.ok (.paused shown))) ∧
      ((s.after commands).status = .finished ↔
        ∃ answer, (s.answers commands).getLast? = some answer ∧ ∀ shown, answer ≠ .ok (.paused shown)) ∧
      (∀ shown, (s.answers commands).getLast? = some (.ok (.paused shown)) → (s.after commands).current = shown ∧
        ∃ e line, s.program.code.code[(s.after commands).machine.pc]? = some e ∧ e.line = some line ∧
          (s.after commands).current.line = some line) ∧
      (∀ c err, ((s.after commands).command c).result = .error err →
        ((s.after commands).command c).session = { s.after commands with status := .finished }) ∧
      ((∃ answer ∈ s.answers commands, ∀ shown, answer ≠ .ok (.paused shown)) → ∀ c,
        (s.after commands).command c = ⟨s.after commands, .ok (.finished (s.lastShown commands)), []⟩) := by
  obtain ⟨J, hJ, -⟩ := p.lowers (Program.scoped_of_source hp ht)
  obtain ⟨s, hs, -, -, -, hrunning, -⟩ := start_stands (Prepared.ofSource_eq hp ht hJ) requested config
  refine ⟨s, hs, fun commands => ?_⟩
  have hstatus := s.status_after commands
  refine ⟨?_, ?_, ?_, fun shown hlast => ?_, fun c err herr => Session.command_of_error herr, ?_⟩
  · rw [hstatus, ← s.last_answer_none_iff commands]
    cases (s.answers commands).getLast? with
    | none => simp [hrunning]
    | some answer => simp [Session.statusOf_ne_running answer]
  · rw [hstatus]
    cases (s.answers commands).getLast? with
    | none => simp [hrunning]
    | some answer => simp [Session.statusOf_eq_paused_iff]
  · rw [hstatus]
    cases (s.answers commands).getLast? with
    | none => simp [hrunning]
    | some answer => simp [Session.statusOf_eq_finished_iff]
  · rcases List.eq_nil_or_concat commands with rfl | ⟨before, c, rfl⟩
    · cases hlast
    · rw [List.concat_eq_append] at hlast ⊢
      rw [Session.answers_concat, List.getLast?_concat] at hlast
      rw [Session.after_concat]
      obtain ⟨hcurrent, e, line, he, hline, hshown⟩ := Session.command_of_paused (Option.some.inj hlast)
      rw [(s.program_after before).1] at he
      exact ⟨hcurrent, e, line, he, hline, hcurrent ▸ hshown⟩
  · rintro ⟨answer, hmem, hanswer⟩ c
    have hfinished := Session.finished_of_answer hmem (Session.statusOf_eq_finished_iff.mpr hanswer)
    rw [Session.command_of_finished hfinished, s.current_after]

/-- A pause, a division by zero behind it, and a command more. -/
theorem session_settles_division : ∃ p t s,
    Program.ofSource "write 1;\nwrite 1 / 0;" = .ok p ∧ p.analyze = .ok t ∧
      Session.start "write 1;\nwrite 1 / 0;" [2] ⟨1, 100⟩ = .ok s ∧
      s.answers [.continue, .stepOver] = [.ok (.paused ⟨[], some 2, [1]⟩), .error (.divisionByZero 2)] ∧
      (s.after [.continue, .stepOver]).command .continue =
        ⟨s.after [.continue, .stepOver], .ok (.finished ⟨[], some 2, [1]⟩), []⟩ := by
  obtain ⟨p, t, s, hp, ht, hs, hanswers⟩ : ∃ p t s,
      Program.ofSource "write 1;\nwrite 1 / 0;" = .ok p ∧ p.analyze = .ok t ∧
        Session.start "write 1;\nwrite 1 / 0;" [2] ⟨1, 100⟩ = .ok s ∧
        s.answers [.continue, .stepOver] = [.ok (.paused ⟨[], some 2, [1]⟩), .error (.divisionByZero 2)] :=
    ⟨_, _, _, rfl, rfl, rfl, by decide +kernel⟩
  obtain ⟨s', hs', hsettles⟩ := session_settles hp ht [2] ⟨1, 100⟩
  obtain rfl := Except.ok.inj (hs.symm.trans hs')
  obtain ⟨-, -, -, -, -, hended⟩ := hsettles [.continue, .stepOver]
  refine ⟨p, t, s, hp, ht, hs, hanswers, ?_⟩
  rw [hended ⟨.error (.divisionByZero 2), by simp [hanswers], nofun⟩, Session.lastShown, hanswers]
  rfl

end Program

end PLZero
