import PLZero.Proofs.Emitted
import PLZero.Proofs.Lockstep
import PLZero.Proofs.Lowered

/-! Code of well-scoped programs is accepted by all that read it. The script is made whenever the stack
module is. -/

namespace PLZero

theorem Script.ofCode_of_module {code : List Instr} {w : StackModule.Writer}
    (h : StackModule.Writer.ofCode code = .ok w) : ∃ s, Script.ofCode code = .ok s := by
  obtain ⟨e, he, hfinish⟩ := ok_of_bind h
  obtain ⟨_, hclosed, -⟩ := ok_of_bind hfinish
  rcases EmitterLike.initial.run code with ⟨e1, e', he1, he', hlike⟩ |
    ⟨before, i, after, e1, e', err, err', hcode, he1, he', hlike, hi, -, -⟩
  · obtain rfl := Except.ok.inj (he.symm.trans he1)
    rcases hlike.markers.finish.elim with ⟨_, _, -, hclosed', -⟩ | ⟨err, _, hm, -, -⟩
    · rw [Script.ofCode, he']
      simp only [bind, Except.bind, hclosed']
      exact ⟨_, rfl⟩
    · rw [hclosed] at hm
      cases hm
  · rw [hcode, foldlM_of_stop he1 hi] at he
    cases he

namespace Program

variable {p : Program}

theorem scripts (h : p.Scoped) : ∃ s, Script.ofCode p.code = .ok s := by
  obtain ⟨M, w, hw, -⟩ := p.emits h
  exact Script.ofCode_of_module hw

/-- Every target takes the code of a well-scoped program, and no expression of it is left unused. -/
theorem renders (h : p.Scoped) (target : Target) : ∃ text, target.render p.code = .ok (text, []) := by
  cases target with
  | stackModule =>
    obtain ⟨M, w, -, hM, -⟩ := p.emits h
    exact ⟨M.text, hM⟩
  | script =>
    obtain ⟨s, hs⟩ := p.scripts h
    refine ⟨s.text, ?_⟩
    rw [Target.render, hs]
    rfl

/-- Every target and the replay take the code of a program read from source text, and no expression of
it is left unused. -/
theorem code_accepted {source : String} {t : Table} (hp : Program.ofSource source = .ok p)
    (ht : p.analyze = .ok t) :
    (∀ target : Target, ∃ text, target.render p.code = .ok (text, [])) ∧
      ∃ J, Replay.JumpCode.ofCode p.code = .ok J := by
  have h := Program.scoped_of_source hp ht
  obtain ⟨J, hJ, -⟩ := p.lowers h
  exact ⟨renders h, J, hJ⟩

/-- A procedure declared in one branch and called in the other, in a loop. -/
theorem code_accepted_branches : ∃ p t,
    Program.ofSource "var n; if n = 1 then procedure p; n := 2; else while n < 9 do p; endwhile; endif;" = .ok p ∧
      p.analyze = .ok t ∧ (∀ target : Target, ∃ text, target.render p.code = .ok (text, [])) ∧
      ∃ J, Replay.JumpCode.ofCode p.code = .ok J := by
  obtain ⟨p, t, hp, ht⟩ : ∃ p t,
      Program.ofSource "var n; if n = 1 then procedure p; n := 2; else while n < 9 do p; endwhile; endif;" = .ok p ∧
        p.analyze = .ok t := ⟨_, _, rfl, rfl⟩
  exact ⟨p, t, hp, ht, code_accepted hp ht⟩

end Program

end PLZero
