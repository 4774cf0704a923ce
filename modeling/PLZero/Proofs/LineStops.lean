import PLZero.Proofs.SessionStatus

/-! Running to a line. A run that stops at the first step on or behind a line stops where a session would that has a
breakpoint on every such line. The two ask for different probes, and agree because of what holds along the way: until
the run stops, the line that it has last seen is a line before. -/

namespace PLZero

namespace Replay

variable {l : Nat} {s : Session}

section

variable {J : JumpCode} {readValue : Int32} {stop stop' : Probe → Bool} {P : Machine → Prop} {m m' : Machine} {n : Nat}

/-- Every step that a run does not stop at keeps `P`. -/
def KeptBy (J : JumpCode) (readValue : Int32) (stop : Probe → Bool) (P : Machine → Prop) : Prop :=
  ∀ m m' e, P m → J.code[m.pc]? = some e → m.stopAt stop e = none →
    Machine.execute J readValue (m.count e) e = .ok m' → P m'

theorem KeptBy.ends {probe : Option Probe} (hkeep : KeptBy J readValue stop P) (hm : P m)
    (h : Ends J readValue stop m n (.ok (probe, m'))) : P m' := by
  generalize hr : Except.ok (probe, m') = r at h
  induction h with
  | finished | stopped =>
    cases hr
    exact hm
  | failed => cases hr
  | step he hgo hstep _ ih => exact ih (hkeep _ _ _ hm he hgo hstep) hr

/-- Two runs are one if they stop alike as long as they have not stopped. -/
theorem KeptBy.runFor_eq (hkeep : KeptBy J readValue stop P)
    (hstop : ∀ m e, P m → J.code[m.pc]? = some e → m.stopAt stop e = m.stopAt stop' e) (hm : P m) (limit fuel : Nat) :
    Machine.runFor J readValue stop limit fuel m = Machine.runFor J readValue stop' limit fuel m := by
  induction fuel generalizing m with
  | zero =>
    rw [Machine.runFor.eq_def, Machine.runFor.eq_def J readValue stop']
    cases he : J.code[m.pc]? with
    | none => rfl
    | some e => simp only [hstop m e hm he]
  | succ fuel ih =>
    rw [Machine.runFor.eq_def, Machine.runFor.eq_def J readValue stop']
    cases he : J.code[m.pc]? with
    | none => rfl
    | some e =>
      simp only [← hstop m e hm he]
      cases hgo : m.stopAt stop e with
      | some probe => rfl
      | none =>
        cases hstep : Machine.execute J readValue (m.count e) e with
        | error err => rfl
        | ok m' => exact ih (hkeep m m' e hm he hgo hstep)

end

variable {J : JumpCode} {readValue : Int32} {stop : Probe → Bool} {m : Machine} {e : Exec} {line : Nat}

/-- The line that was last seen, if there is one, is before `line`. -/
def Machine.IsBefore (line : Nat) (m : Machine) : Prop := ∀ last, m.lastLine = some last → last < line

theorem Machine.isBefore_initial (line : Nat) : Machine.initial.IsBefore line := nofun

theorem JumpCode.mem_lines (he : J.code[m.pc]? = some e) (hl : e.line = some l) : l ∈ J.lines :=
  List.mem_filterMap.mpr ⟨e, Array.mem_def.mp (Array.mem_of_getElem? he), hl⟩

theorem reaches_probe (line : Nat) (m : Machine) (l : Nat) :
    Machine.reaches (some line) (m.probe l) = decide (line ≤ l) := rfl

theorem lt_of_not_reached (hgo : m.stopAt (Machine.reaches (some line)) e = none) (hl : e.line = some l) :
    l < line := by
  by_contra hle
  have hstop : m.stopAt (Machine.reaches (some line)) e = some (m.probe l) :=
    stopAt_eq_some_iff.mpr ⟨l, hl, rfl, by rw [reaches_probe, decide_eq_true (Nat.le_of_not_lt hle)]⟩
  cases hgo.symm.trans hstop

theorem isBefore_kept (J : JumpCode) (readValue : Int32) (line : Nat) :
    KeptBy J readValue (Machine.reaches (some line)) (Machine.IsBefore line) := by
  intro m m' e hm _ hgo hstep last hlast
  rw [(execute_moves hstep).2.2.1] at hlast
  cases hl : e.line with
  | none =>
    rw [Machine.count, hl] at hlast
    exact hm last hlast
  | some l =>
    rw [Machine.count, hl] at hlast
    cases hlast
    exact lt_of_not_reached hgo hl

/-- What comes from `line` on is entered where it is first met. -/
theorem Machine.IsBefore.boundary (h : m.IsBefore line) (hle : line ≤ l) : (m.probe l).boundary = true :=
  bne_iff_ne.mpr fun heq => Nat.not_lt.mpr hle (h l heq)

theorem boundary_of_reached {n : Nat} {probe : Probe} {m' : Machine}
    (h : Ends J readValue (Machine.reaches (some line)) .initial n (.ok (some probe, m'))) : probe.boundary = true := by
  have hbefore := (isBefore_kept J readValue line).ends (Machine.isBefore_initial line) h
  obtain ⟨e, l, -, -, rfl, hstop⟩ := h.stopped_before
  rw [reaches_probe] at hstop
  exact hbefore.boundary (of_decide_eq_true hstop)

theorem wants_continue (hpause : s.pausedAt = none) (l : Nat) :
    s.wants .continue (m.probe l) = ((m.probe l).boundary && decide (l ∈ s.breakpoints)) := by
  rw [Session.wants, hpause, Option.all_none, Bool.and_true]
  rfl

/-- Before its first command, a session with a breakpoint on every line with a step from `line` on asks for the probes
that a run to `line` stops at. -/
theorem stopAt_reaches_eq (hpause : s.pausedAt = none)
    (hbreak : ∀ l, l ∈ s.breakpoints ↔ l ∈ J.lines ∧ line ≤ l) (hm : m.IsBefore line) (he : J.code[m.pc]? = some e) :
    m.stopAt (Machine.reaches (some line)) e = m.stopAt (s.wants .continue) e := by
  have hwants {l : Nat} (hl : e.line = some l) :
      Machine.reaches (some line) (m.probe l) = s.wants .continue (m.probe l) := by
    have hmem : l ∈ s.breakpoints ↔ line ≤ l := (hbreak l).trans (and_iff_right (JumpCode.mem_lines he hl))
    rw [reaches_probe, wants_continue hpause, decide_eq_decide.mpr hmem]
    by_cases hle : line ≤ l
    · rw [hm.boundary hle, Bool.true_and]
    · rw [decide_eq_false hle, Bool.and_false]
  unfold Machine.stopAt
  cases hl : e.line with
  | none => rfl
  | some l => rw [Option.bind_some, Option.bind_some, hwants hl]

theorem mem_snap_of_lines {lines requested : List Nat} (hsub : requested ⊆ lines) (l : Nat) :
    l ∈ Session.snap lines requested ↔ l ∈ requested := by
  rw [mem_snap]
  constructor
  · rintro ⟨r, hr, hle, -, hleast⟩
    obtain rfl : l = r := Nat.le_antisymm (hleast r (hsub hr) (Nat.le_refl r)) hle
    exact hr
  · exact fun hl => ⟨l, hl, Nat.le_refl l, hsub hl, fun _ _ hle => hle⟩

/-- The event that a command answers with, from the snapshot. -/
def Event.ofSnapshot (shown : Snapshot) : Event := if shown.line = none then .finished shown else .paused shown

theorem Event.snapshot_ofSnapshot (shown : Snapshot) : (Event.ofSnapshot shown).snapshot = shown := by
  unfold ofSnapshot
  split <;> rfl

/-- The first command of a session answers with what its run comes to. -/
theorem command_of_running (hs : s.status = .running) (c : Command) :
    (s.command c).result = (s.machine.resume s.program.code s.config (s.wants c)).map fun r =>
      .ofSnapshot (s.program.snapshot r.2 (r.1.map (·.line))) := by
  rw [Session.command, if_neg (by simp [hs])]
  rcases s.machine.resume s.program.code s.config (s.wants c) with err | ⟨_ | probe, m⟩
  · rfl
  · rfl
  · rfl

end Replay

namespace Program

open Replay

/-- Running to a line is continuing once with a breakpoint on every line with a step from there on: the snapshot is the
same, or the failure, and the session pauses where the run has stopped at a line and has finished where it has not. The
first step on one of these lines enters its line. -/
theorem runTo_line_is_continue {source : String} {p : Program} {t : Table} (hp : Program.ofSource source = .ok p)
    (ht : p.analyze = .ok t) (line : Nat) (config : Config) :
    ∃ J, JumpCode.ofCode p.code = .ok J ∧
      (∀ n probe m, Ends J config.readValue (Machine.reaches (some line)) .initial n (.ok (some probe, m)) →
        probe.boundary = true) ∧
      ∀ requested, (∀ l, l ∈ requested ↔ l ∈ J.lines ∧ line ≤ l) →
        ∃ s, Session.start source requested config = .ok s ∧ (∀ l, l ∈ s.breakpoints ↔ l ∈ J.lines ∧ line ≤ l) ∧
          (s.command .continue).result.map Event.snapshot = runTo source (some line) config ∧
          (s.command .continue).result = (runTo source (some line) config).map Event.ofSnapshot := by
  obtain ⟨J, hJ, -⟩ := p.lowers (Program.scoped_of_source hp ht)
  have hprepared := Prepared.ofSource_eq hp ht hJ
  refine ⟨J, hJ, fun n probe m h => boundary_of_reached h, fun requested hrequested => ?_⟩
  obtain ⟨s, hs, hprogram, hsnap, hconfig, hstatus, hpause, hmachine, -⟩ := start_stands hprepared requested config
  have hbreak (l : Nat) : l ∈ s.breakpoints ↔ l ∈ J.lines ∧ line ≤ l := by
    rw [hsnap, mem_snap_of_lines fun l hl => ((hrequested l).mp hl).1, hrequested]
  have hrun : Machine.run J config (Machine.reaches (some line)) = s.machine.resume J config (s.wants .continue) := by
    rw [hmachine]
    exact (isBefore_kept J config.readValue line).runFor_eq (fun _ _ => stopAt_reaches_eq hpause hbreak)
      (Machine.isBefore_initial line) _ _
  have hresult : (s.command .continue).result = (runTo source (some line) config).map Event.ofSnapshot := by
    rw [command_of_running hstatus, runTo_eq_map hprepared, hprogram, hconfig, hrun]
    cases s.machine.resume J config (s.wants .continue) <;> rfl
  refine ⟨s, hs, hbreak, ?_, hresult⟩
  rw [hresult]
  cases runTo source (some line) config with
  | ok shown => exact congrArg Except.ok (Event.snapshot_ofSnapshot shown)
  | error err => rfl

/-- A loop that runs twice before the first step from line 4 on, which is on line 5. -/
theorem runTo_line_is_continue_loop : ∃ p t J s,
    Program.ofSource "var n;\nwhile n < 2 do\n  n := n + 1;\nendwhile;\nwrite n;" = .ok p ∧ p.analyze = .ok t ∧
      JumpCode.ofCode p.code = .ok J ∧ (∀ l, l ∈ [5] ↔ l ∈ J.lines ∧ 4 ≤ l) ∧
      Session.start "var n;\nwhile n < 2 do\n  n := n + 1;\nendwhile;\nwrite n;" [5] ⟨1, 100⟩ = .ok s ∧
      (s.command .continue).result = .ok (.paused ⟨[⟨"n", some 2, .variable, []⟩], some 5, []⟩) := by
  obtain ⟨p, t, J, hp, ht, hJ, hlines, hrun⟩ : ∃ p t J,
      Program.ofSource "var n;\nwhile n < 2 do\n  n := n + 1;\nendwhile;\nwrite n;" = .ok p ∧ p.analyze = .ok t ∧
        JumpCode.ofCode p.code = .ok J ∧ J.lines = [1, 2, 2, 2, 2, 3, 3, 3, 3, 5, 5] ∧
        runTo "var n;\nwhile n < 2 do\n  n := n + 1;\nendwhile;\nwrite n;" (some 4) ⟨1, 100⟩ =
          .ok ⟨[⟨"n", some 2, .variable, []⟩], some 5, []⟩ :=
    ⟨_, _, _, rfl, rfl, rfl, rfl, by decide +kernel⟩
  have hrequested (l : Nat) : l ∈ [5] ↔ l ∈ J.lines ∧ 4 ≤ l := by
    rw [hlines]
    simp only [List.mem_cons, List.not_mem_nil, or_false]
    omega
  obtain ⟨J', hJ', -, hcontinue⟩ := runTo_line_is_continue hp ht 4 ⟨1, 100⟩
  obtain rfl := Except.ok.inj (hJ.symm.trans hJ')
  obtain ⟨s, hs, -, -, hresult⟩ := hcontinue [5] hrequested
  rw [hrun] at hresult
  exact ⟨p, t, J, s, hp, ht, hJ, hrequested, hs, hresult⟩

end Program

end PLZero
