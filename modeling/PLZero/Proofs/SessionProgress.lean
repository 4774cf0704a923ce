import PLZero.CommandLine.Response
import PLZero.Proofs.ReplaySafe
import PLZero.Proofs.SessionStatus

/-! Sessions make progress. A command that goes on from a pause stops where the same command would stop in a run from the
start, every pause has more steps behind it than the pause before, and the step limit bounds the number of pauses. So
whoever repeats a command comes to the end of the session. -/

namespace PLZero

namespace Replay

section

variable {J : JumpCode} {readValue : Int32} {stop : Probe → Bool} {m m' : Machine} {n : Nat}
  {r : Except ReplayError (Option Probe × Machine)}

/-- A run that does not stop before it comes to `m` ends as the run from `m` does. -/
theorem Reachable.ends_iff (hm : Reachable J readValue m) (hstop : ∀ probe, probe.steps < m.steps → stop probe = false) :
    Ends J readValue stop .initial n r ↔ ∃ k, n = m.steps + k ∧ Ends J readValue stop m k r := by
  induction hm generalizing n with
  | initial => exact ⟨fun h => ⟨n, (Nat.zero_add n).symm, h⟩, fun ⟨k, hk, h⟩ => hk ▸ (Nat.zero_add k).symm ▸ h⟩
  | @step m m' e _ he hstep ih =>
    have hsteps : m'.steps = m.steps + 1 := (execute_moves hstep).2.1
    have hgo : m.stopAt stop e = none := by
      rw [Option.eq_none_iff_forall_ne_some]
      intro probe hprobe
      obtain ⟨line, -, rfl, htrue⟩ := stopAt_eq_some_iff.mp hprobe
      have hfalse := hstop (m.probe line) (hsteps ▸ Nat.lt_succ_self m.steps)
      cases htrue.symm.trans hfalse
    rw [ih fun probe hprobe => hstop probe (hsteps ▸ Nat.lt_succ_of_lt hprobe)]
    constructor
    · rintro ⟨k, rfl, h⟩
      cases h with
      | finished hend => cases he.symm.trans hend
      | stopped he' hstop' =>
        obtain rfl := Option.some.inj (he.symm.trans he')
        cases hgo.symm.trans hstop'
      | failed he' _ hfail =>
        obtain rfl := Option.some.inj (he.symm.trans he')
        cases hstep.symm.trans hfail
      | @step _ _ _ k _ he' _ hstep' h =>
        obtain rfl := Option.some.inj (he.symm.trans he')
        obtain rfl := Except.ok.inj (hstep.symm.trans hstep')
        exact ⟨k, by omega, h⟩
    · rintro ⟨k, rfl, h⟩
      exact ⟨k + 1, by omega, .step he hgo hstep h⟩

/-- Going on from such a state is running from the start. -/
theorem Reachable.resume_eq_run {config : Config} (hm : Reachable J config.readValue m)
    (hsteps : m.steps ≤ config.maxSteps) (hstop : ∀ probe, probe.steps < m.steps → stop probe = false) :
    m.resume J config stop = Machine.run J config stop := by
  by_cases h : ∃ k r, Ends J config.readValue stop m k r
  · obtain ⟨k, r, h⟩ := h
    have hstart : Ends J config.readValue stop .initial (m.steps + k) r := (hm.ends_iff hstop).mpr ⟨k, rfl, h⟩
    have hle : k ≤ config.maxSteps - m.steps ↔ m.steps + k ≤ config.maxSteps - Machine.initial.steps := by
      rw [show Machine.initial.steps = 0 from rfl]
      omega
    rw [Machine.run, Machine.resume, Machine.resume, h.runFor, hstart.runFor]
    simp only [hle]
  · have hrun (m' : Machine) (hnone : ¬ ∃ k r, Ends J config.readValue stop m' k r) :
        m'.resume J config stop = .error (.stepLimit config.maxSteps) := by
      by_contra hne
      obtain ⟨k, -, hends⟩ := ends_of_runFor rfl hne
      exact hnone ⟨k, _, hends⟩
    rw [Machine.run, hrun m h, hrun .initial]
    rintro ⟨k, r, hends⟩
    obtain ⟨k, -, hends⟩ := (hm.ends_iff hstop).mp hends
    exact h ⟨k, r, hends⟩

end

namespace Session

/-- The replies to commands given one after the other. -/
def replies (s : Session) : List Command → List Reply
  | [] => []
  | command :: commands => s.command command :: (s.command command).session.replies commands

/-- The state of a session is one that its program comes to within the limit; the pause is kept, and what was written
is shown. -/
structure Sound (s : Session) : Prop where
  reachable : Reachable s.program.code s.config.readValue s.machine
  within : s.machine.steps ≤ s.config.maxSteps
  output : s.current.output = s.machine.output.toList
  running : s.status = .running → s.machine = .initial ∧ s.pausedAt = none
  paused : s.status = .paused → s.pausedAt = some ⟨s.machine.steps, s.machine.calls.size⟩

/-- The pauses that a session can still come to, at most. -/
def pausesLeft (s : Session) : Nat :=
  match s.status with
  | .running => s.config.maxSteps + 1
  | .paused => s.config.maxSteps - s.machine.steps
  | .finished => 0

/-- A session further on: more steps are executed, and what was written is still there. -/
structure Precedes (s s' : Session) : Prop where
  steps : s.machine.steps < s'.machine.steps
  output : s.current.output <+: s'.current.output

theorem Precedes.trans {s s' s'' : Session} (h : s.Precedes s') (h' : s'.Precedes s'') : s.Precedes s'' :=
  ⟨h.steps.trans h'.steps, h.output.trans h'.output⟩

section

variable {s : Session} {c : Command}

/-- From a pause every command asks for a place further on. -/
theorem Sound.lt_of_wants {probe : Probe} (h : s.Sound) (hstatus : s.status = .paused)
    (hwants : s.wants c probe = true) : s.machine.steps < probe.steps := by
  cases c with
  | «continue» =>
    simp only [wants, h.paused hstatus, Option.all_some, Bool.and_eq_true, decide_eq_true_eq] at hwants
    exact hwants.2
  | stepOver =>
    simp only [wants, h.paused hstatus, Option.all_some, Bool.and_eq_true, decide_eq_true_eq] at hwants
    exact hwants.1.2

/-- No command asks for a place that the session has passed. -/
theorem Sound.wants_eq_false (h : s.Sound) (hs : s.status ≠ .finished) (c : Command) {probe : Probe}
    (hprobe : probe.steps < s.machine.steps) : s.wants c probe = false := by
  cases hstatus : s.status with
  | finished => exact absurd hstatus hs
  | running =>
    rw [(h.running hstatus).1] at hprobe
    exact absurd hprobe (Nat.not_lt_zero _)
  | paused =>
    rw [Bool.eq_false_iff]
    intro hwants
    exact Nat.lt_asymm hprobe (h.lt_of_wants hstatus hwants)

/-- A command goes on in place, to where a run from the start stops. -/
theorem Sound.resume_eq_run (h : s.Sound) (hs : s.status ≠ .finished) (c : Command) :
    s.machine.resume s.program.code s.config (s.wants c) = Machine.run s.program.code s.config (s.wants c) :=
  h.reachable.resume_eq_run h.within fun _ hprobe => h.wants_eq_false hs c hprobe

/-- Where a command leads that comes to a pause or to the end of the program. -/
theorem Sound.resume_ok {probe : Option Probe} {m : Machine} (h : s.Sound)
    (hrun : s.machine.resume s.program.code s.config (s.wants c) = .ok (probe, m)) :
    Reachable s.program.code s.config.readValue m ∧ m.steps ≤ s.config.maxSteps ∧
      s.current.output <+: m.output.toList := by
  obtain ⟨n, hn, hends⟩ := ends_of_runFor hrun nofun
  have hwithin := h.within
  refine ⟨(h.reachable.runFor_ok hrun).1, ?_, h.output ▸ hends.output_prefix⟩
  rw [hends.steps_eq]
  omega

theorem Sound.command (h : s.Sound) (c : Command) : (s.command c).session.Sound := by
  rcases s.command_cases c with
    ⟨-, hreply⟩ | ⟨-, ⟨m, e, line, hrun, -, -, -, hreply⟩ | ⟨m, hrun, hreply⟩ | ⟨err, hreply⟩⟩
  · rw [hreply]
    exact h
  · obtain ⟨hreachable, hwithin, -⟩ := h.resume_ok hrun
    rw [hreply]
    exact ⟨hreachable, hwithin, rfl, nofun, fun _ => rfl⟩
  · obtain ⟨hreachable, hwithin, -⟩ := h.resume_ok hrun
    rw [hreply]
    exact ⟨hreachable, hwithin, rfl, nofun, nofun⟩
  · rw [hreply]
    exact ⟨h.reachable, h.within, h.output, nofun, nofun⟩

theorem Sound.after (h : s.Sound) (commands : List Command) : (s.after commands).Sound := by
  induction commands generalizing s with
  | nil => exact h
  | cons c commands ih => exact ih (h.command c)

/-- Every pause is further on than the one before, and leaves fewer to come. -/
theorem Sound.of_paused {shown : Snapshot} (h : s.Sound) (hresult : (s.command c).result = .ok (.paused shown)) :
    (s.status = .paused → s.Precedes (s.command c).session) ∧
      (s.command c).session.pausesLeft < s.pausesLeft := by
  obtain ⟨hs, m, e, line, hrun, -, -, hwants, hreply⟩ := pause_of_result hresult
  obtain ⟨-, hwithin, houtput⟩ := h.resume_ok hrun
  have hlater (hstatus : s.status = .paused) : s.machine.steps < m.steps := h.lt_of_wants hstatus hwants
  rw [hreply]
  refine ⟨fun hstatus => ⟨hlater hstatus, houtput⟩, ?_⟩
  have hleft : (s.pause m (m.probe line)).session.pausesLeft = s.config.maxSteps - m.steps := rfl
  rw [hleft, pausesLeft]
  cases hstatus : s.status with
  | finished => exact absurd hstatus hs
  | running =>
    simp only
    omega
  | paused =>
    have hlt := hlater hstatus
    simp only
    omega

theorem status_replies_of_finished (hs : s.status = .finished) (commands : List Command) :
    ∀ r ∈ s.replies commands, statusOf r.result = .finished := by
  induction commands with
  | nil => exact fun r hr => absurd hr List.not_mem_nil
  | cons c commands ih =>
    rw [replies, command_of_finished hs]
    exact List.forall_mem_cons.mpr ⟨rfl, ih⟩

/-- The replies to any commands: pauses first, each further on than those before it, and no pause behind them. -/
theorem Sound.replies_split (h : s.Sound) (commands : List Command) : ∃ pauses rest,
    s.replies commands = pauses ++ rest ∧
      (∀ r ∈ pauses, r.session.Sound ∧ r.session.status = .paused ∧ r.result = .ok (.paused r.session.current) ∧
        (s.status = .paused → s.Precedes r.session)) ∧
      pauses.Pairwise (fun a b => a.session.Precedes b.session) ∧ pauses.length ≤ s.pausesLeft ∧
      ∀ r ∈ rest, statusOf r.result = .finished := by
  induction commands generalizing s with
  | nil => exact ⟨[], [], rfl, by simp, .nil, Nat.zero_le _, by simp⟩
  | cons c commands ih =>
    rw [replies]
    cases hanswer : statusOf (s.command c).result with
    | running => exact absurd hanswer (statusOf_ne_running _)
    | finished =>
      have hstatus := (s.status_command c).trans hanswer
      refine ⟨[], _, rfl, by simp, .nil, Nat.zero_le _, List.forall_mem_cons.mpr ⟨hanswer, ?_⟩⟩
      exact status_replies_of_finished hstatus commands
    | paused =>
      have hstatus := (s.status_command c).trans hanswer
      obtain ⟨shown, hresult⟩ := statusOf_eq_paused_iff.mp hanswer
      obtain ⟨hprecedes, hleft⟩ := h.of_paused hresult
      obtain ⟨pauses, rest, hreplies, hpauses, hpairwise, hlength, hrest⟩ := ih (h.command c)
      refine ⟨s.command c :: pauses, rest, by rw [hreplies, List.cons_append], ?_, ?_, ?_, hrest⟩
      · refine List.forall_mem_cons.mpr ⟨⟨h.command c, hstatus, ?_, hprecedes⟩, fun r hr => ?_⟩
        · rw [(command_of_paused hresult).1, hresult]
        · obtain ⟨hsound, hpaused, hshown, hbefore⟩ := hpauses r hr
          exact ⟨hsound, hpaused, hshown, fun hs => (hprecedes hs).trans (hbefore hstatus)⟩
      · exact List.pairwise_cons.mpr ⟨fun r hr => (hpauses r hr).2.2.2 hstatus, hpairwise⟩
      · rw [List.length_cons]
        omega

end

theorem Sound.of_stands {s : Session} (h : s.Stands .start) : s.Sound := by
  obtain ⟨hstatus, hpause, hmachine, hcurrent⟩ := h
  refine ⟨hmachine ▸ .initial, hmachine ▸ Nat.zero_le _, ?_, fun _ => ⟨hmachine, hpause⟩, ?_⟩
  · rw [hcurrent, hmachine]
    rfl
  · rw [hstatus]
    nofun

end Session

end Replay

namespace CommandLine.Options

open Replay

/-- A command repeated until the program has ended or the run has failed, however often that is: every event as a
document. -/
inductive Driven (c : Command) : Session → Traced (Except ReplayError (List String)) → Prop
  | failed {s : Session} {err : ReplayError} (h : (s.command c).result = .error err) :
    Driven c s ⟨.error err, (s.command c).trace⟩
  | finished {s : Session} {event : Event} (h : (s.command c).result = .ok event) (hend : event.isFinished = true) :
    Driven c s ⟨.ok [event.json.compact], (s.command c).trace⟩
  | paused {s : Session} {event : Event} {more : Traced (Except ReplayError (List String))}
    (h : (s.command c).result = .ok event) (hgo : event.isFinished = false)
    (hmore : Driven c (s.command c).session more) :
    Driven c s ⟨more.value.map (event.json.compact :: ·), (s.command c).trace ++ more.trace⟩

/-- More rounds than there can be pauses are as good as any number of rounds. -/
theorem driven_of_pausesLeft {s : Session} (h : s.Sound) (c : Command) {n : Nat} (hn : s.pausesLeft < n) :
    Driven c s (drive c n s) := by
  induction n generalizing s with
  | zero => exact absurd hn (Nat.not_lt_zero _)
  | succ n ih =>
    cases hresult : (s.command c).result with
    | error err =>
      simp only [drive, hresult]
      exact .failed hresult
    | ok event =>
      cases event with
      | finished shown =>
        simp only [drive, hresult]
        exact .finished hresult rfl
      | paused shown =>
        simp only [drive, hresult]
        obtain ⟨-, hleft⟩ := h.of_paused hresult
        exact .paused hresult rfl (ih (h.command c) (by omega))

/-- A debug run answers with the events of its session, however many there are. -/
theorem debugResponse_driven {source : String} {s : Session} (o : Options)
    (hs : Session.start source o.breakpoints ⟨o.readValue, Config.default.maxSteps⟩ = .ok s) (hsound : s.Sound)
    (hleft : s.pausesLeft < Config.default.maxSteps + 2) :
    ∃ driven, Driven (if o.step then .stepOver else .continue) s driven ∧
      o.debugResponse source = eventsResponse (Scan.ofSource source).trace driven := by
  refine ⟨_, driven_of_pausesLeft hsound _ hleft, ?_⟩
  unfold debugResponse
  extract_lets scanned config
  -- the limit is made a variable, so that the rounds are not counted out
  have hlimit : Config.default.maxSteps = config.maxSteps := rfl
  have hsession : Session.start source o.breakpoints config = .ok s := hs
  rw [hlimit]
  clear_value config
  rw [hsession]

end CommandLine.Options

namespace Program

open Replay

/-- Every session over an accepted source makes progress and ends. To any commands it replies with pauses first, each
with more steps executed and nothing of the output lost, at most one more than the limit allows steps, and then with no
pause any more. Every command goes on to where a run from the start stops that asks for the same. So a command repeated
until the end of the session comes to the end, and so does a debug run of the command line. -/
theorem session_progresses {source : String} {p : Program} {t : Table} (hp : Program.ofSource source = .ok p)
    (ht : p.analyze = .ok t) :
    (∀ requested config, ∃ s, Session.start source requested config = .ok s ∧
      (∀ commands, ∃ pauses rest, s.replies commands = pauses ++ rest ∧
        (∀ r ∈ pauses, r.result = .ok (.paused r.session.current) ∧
          r.session.pausedAt = some ⟨r.session.machine.steps, r.session.machine.calls.size⟩) ∧
        pauses.Pairwise (fun a b => a.session.Precedes b.session) ∧ pauses.length ≤ config.maxSteps + 1 ∧
        ∀ r ∈ rest, ∀ shown, r.result ≠ .ok (.paused shown)) ∧
      (∀ commands c, (s.after commands).status ≠ .finished →
        (s.after commands).machine.resume s.program.code config ((s.after commands).wants c) =
          Machine.run s.program.code config ((s.after commands).wants c)) ∧
      ∀ c n, config.maxSteps + 2 ≤ n → CommandLine.Options.Driven c s (CommandLine.Options.drive c n s)) ∧
    ∀ o : CommandLine.Options, ∃ s driven,
      Session.start source o.breakpoints ⟨o.readValue, Config.default.maxSteps⟩ = .ok s ∧
      CommandLine.Options.Driven (if o.step then .stepOver else .continue) s driven ∧
      o.debugResponse source = CommandLine.Options.eventsResponse (Scan.ofSource source).trace driven := by
  obtain ⟨J, hJ, -⟩ := p.lowers (Program.scoped_of_source hp ht)
  have hstart (requested : List Nat) (config : Config) : ∃ s, Session.start source requested config = .ok s ∧
      s.config = config ∧ s.Sound ∧ s.pausesLeft = config.maxSteps + 1 := by
    obtain ⟨s, hs, -, -, hconfig, hstands⟩ := start_stands (Prepared.ofSource_eq hp ht hJ) requested config
    refine ⟨s, hs, hconfig, .of_stands hstands, ?_⟩
    rw [Session.pausesLeft, hstands.1, hconfig]
  constructor
  · intro requested config
    obtain ⟨s, hs, hconfig, hsound, hleft⟩ := hstart requested config
    refine ⟨s, hs, fun commands => ?_, fun commands c hstatus => ?_, fun c n hn => ?_⟩
    · obtain ⟨pauses, rest, hreplies, hpauses, hpairwise, hlength, hrest⟩ := hsound.replies_split commands
      refine ⟨pauses, rest, hreplies, fun r hr => ?_, hpairwise, hleft ▸ hlength, fun r hr => ?_⟩
      · obtain ⟨hr', hstatus, hresult, -⟩ := hpauses r hr
        exact ⟨hresult, hr'.paused hstatus⟩
      · exact Session.statusOf_eq_finished_iff.mp (hrest r hr)
    · obtain ⟨hprogram, -, hconfig'⟩ := s.program_after commands
      rw [← hprogram, ← hconfig, ← hconfig']
      exact (hsound.after commands).resume_eq_run hstatus c
    · exact CommandLine.Options.driven_of_pausesLeft hsound c (by omega)
  · intro o
    obtain ⟨s, hs, -, hsound, hleft⟩ := hstart o.breakpoints ⟨o.readValue, Config.default.maxSteps⟩
    obtain ⟨driven, hdriven, hresponse⟩ :=
      CommandLine.Options.debugResponse_driven o hs hsound (hleft ▸ Nat.lt_succ_self _)
    exact ⟨s, driven, hs, hdriven, hresponse⟩

/-- Two pauses and the end, with no more steps allowed than the program takes. -/
theorem session_progresses_twice : ∃ p t s,
    Program.ofSource "write 1;\nwrite 2;" = .ok p ∧ p.analyze = .ok t ∧
      Session.start "write 1;\nwrite 2;" [2] ⟨1, 4⟩ = .ok s ∧
      (s.replies [.stepOver, .continue, .stepOver]).map (fun r =>
          (r.session.status, r.session.machine.steps, r.session.current.output)) =
        [(.paused, 0, []), (.paused, 2, [1]), (.finished, 4, [1, 2])] ∧
      ∃ pauses rest, s.replies [.stepOver, .continue, .stepOver] = pauses ++ rest ∧
        pauses.Pairwise (fun a b => a.session.Precedes b.session) ∧ pauses.length ≤ 5 ∧
        ∀ r ∈ rest, ∀ shown, r.result ≠ .ok (.paused shown) := by
  obtain ⟨p, t, s, hp, ht, hs, hreplies⟩ : ∃ p t s,
      Program.ofSource "write 1;\nwrite 2;" = .ok p ∧ p.analyze = .ok t ∧
        Session.start "write 1;\nwrite 2;" [2] ⟨1, 4⟩ = .ok s ∧
        (s.replies [.stepOver, .continue, .stepOver]).map (fun r =>
            (r.session.status, r.session.machine.steps, r.session.current.output)) =
          [(.paused, 0, []), (.paused, 2, [1]), (.finished, 4, [1, 2])] :=
    ⟨_, _, _, rfl, rfl, rfl, by decide +kernel⟩
  obtain ⟨s', hs', hprogress, -⟩ := (session_progresses hp ht).1 [2] ⟨1, 4⟩
  obtain rfl := Except.ok.inj (hs.symm.trans hs')
  obtain ⟨pauses, rest, hsplit, -, hpairwise, hlength, hrest⟩ := hprogress [.stepOver, .continue, .stepOver]
  exact ⟨p, t, s, hp, ht, hs, hreplies, pauses, rest, hsplit, hpairwise, hlength, hrest⟩

end Program

end PLZero
