import PLZero.Proofs.Accepted
import PLZero.Proofs.Agreement

/-! The readers of code. Whatever reads code keeps the same scopes, so the replay, the stack module and the script
resolve a name alike, and to what the analysis found for it in the source. -/

namespace PLZero

namespace Scopes

theorem afterAll_cons (s : Scopes) (i : Instr) (code : List Instr) :
    s.afterAll (i :: code) = (s.after i.op).afterAll code := rfl

/-- A reader that keeps its scopes in step with every instruction keeps them in step with code. -/
theorem of_foldlM {σ : Type} {step : σ → Instr → Except CodeError σ} {scopes : σ → Scopes}
    (hstep : ∀ e i e', step e i = .ok e' → scopes e' = (scopes e).after i.op) {code : List Instr} {e e' : σ}
    (h : code.foldlM step e = .ok e') : scopes e' = (scopes e).afterAll code := by
  induction code generalizing e with
  | nil =>
    cases h
    rfl
  | cons i code ih =>
    rw [List.foldlM_cons] at h
    obtain ⟨e1, he1, h⟩ := ok_of_bind h
    rw [ih h, hstep e i e1 he1, afterAll_cons]

end Scopes

namespace Replay.Lowering

variable {l l' : Lowering} {i : Instr}

theorem scopes_patchAll (l : Lowering) (positions : List Nat) : (l.patchAll positions).scopes = l.scopes := by
  rw [patchAll_eq]

theorem scopes_elseIf (h : l.elseIf i = .ok l') : l'.scopes = l.scopes := by
  unfold elseIf at h
  split at h
  · obtain ⟨⟨pending, exits⟩, -, h⟩ := ok_of_bind h
    cases h
    rfl
  · cases h

theorem scopes_call {name : String} (h : l.call name i = .ok l') : l'.scopes = l.scopes := by
  obtain ⟨id, -, h⟩ := ok_of_bind h
  split at h
  · cases h
    rfl
  · cases h

theorem scopes_instr (l : Lowering) (i : Instr) (l' : Lowering) (h : l.instr i = .ok l') :
    l'.scopes = l.scopes.after i.op := by
  obtain ⟨op, line⟩ := i
  cases op with
  | push value | oper op | write | procedureStart name | ifMark | whileMark =>
    cases h
    rfl
  | declare name | const name value | load name | store name | read name | forInit name =>
    obtain ⟨v, -, h⟩ := ok_of_bind h
    cases h
    rfl
  | procedureEnd name | elseMark | doMark | forTo name =>
    obtain ⟨x, -, h⟩ := ok_of_bind h
    cases h
    rfl
  | endIf | endWhile | endFor name =>
    obtain ⟨x, -, h⟩ := ok_of_bind h
    cases h
    exact scopes_patchAll _ _
  | elseIf => exact scopes_elseIf h
  | call name => exact scopes_call h

end Replay.Lowering

namespace StackModule.Writer

variable {w w' : Writer} {i : Instr}

theorem scopes_pop {text : String} (h : w.pop i = .ok (text, w')) : w'.scopes = w.scopes := by
  unfold pop at h
  split at h
  · cases h
    exact scopes_withCurrent ..
  · cases h

theorem scopes_continueIf {isLast : Bool} (h : w.continueIf i isLast = .ok w') :
    w'.scopes = w.scopes := by
  obtain ⟨⟨guards, last⟩, -, h⟩ := ok_of_bind h
  cases last with
  | true => cases h
  | false =>
    cases h
    rfl

theorem scopes_instr (w : Writer) (i : Instr) (w' : Writer) (h : w.instr i = .ok w') :
    w'.scopes = w.scopes.after i.op := by
  obtain ⟨op, line⟩ := i
  cases op with
  | declare name | const name value | procedureStart name =>
    cases h
    rfl
  | push value | whileMark =>
    cases h
    exact scopes_withCurrent ..
  | procedureEnd name =>
    obtain ⟨x, -, h⟩ := ok_of_bind h
    cases h
    rfl
  | load name | call name | read name | endIf | endWhile | endFor name =>
    obtain ⟨x, -, h⟩ := ok_of_bind h
    cases h
    exact scopes_withCurrent ..
  | elseMark =>
    obtain ⟨w1, hif, h⟩ := ok_of_bind h
    have hscopes := scopes_continueIf hif
    cases h
    exact (scopes_withCurrent ..).trans hscopes
  | elseIf =>
    obtain ⟨w1, hif, h⟩ := ok_of_bind h
    obtain ⟨⟨cond, w2⟩, hpop, h⟩ := ok_of_bind h
    have hscopes := (scopes_pop hpop).trans (scopes_continueIf hif)
    cases h
    exact (scopes_withCurrent ..).trans hscopes
  | write | ifMark =>
    obtain ⟨⟨value, w1⟩, hpop, h⟩ := ok_of_bind h
    have hscopes := scopes_pop hpop
    cases h
    exact (scopes_withCurrent ..).trans hscopes
  | store name | doMark | forTo name =>
    obtain ⟨x, -, h⟩ := ok_of_bind h
    obtain ⟨⟨value, w1⟩, hpop, h⟩ := ok_of_bind h
    have hscopes := scopes_pop hpop
    cases h
    exact (scopes_withCurrent ..).trans hscopes
  | forInit name =>
    obtain ⟨x, -, h⟩ := ok_of_bind h
    obtain ⟨⟨start, w1⟩, hpop, h⟩ := ok_of_bind h
    have hscopes := scopes_pop hpop
    cases h
    exact (scopes_withCurrent ..).trans ((scopes_withCurrent ..).trans hscopes)
  | oper op =>
    obtain ⟨⟨right, w1⟩, hright, h⟩ := ok_of_bind h
    obtain ⟨⟨left, w2⟩, hleft, h⟩ := ok_of_bind h
    have hscopes := (scopes_pop hleft).trans (scopes_pop hright)
    cases h
    exact (scopes_withCurrent ..).trans hscopes

end StackModule.Writer

/-- The three readers of code, each with the scopes that it has behind this code. -/
structure ReadersAt (code : List Instr) (s : Scopes) : Prop where
  replay : ∃ l, code.foldlM Replay.Lowering.instr .initial = .ok l ∧ l.scopes = s
  stackModule : ∃ w, code.foldlM StackModule.Writer.instr .initial = .ok w ∧ w.scopes = s
  script : ∃ e, code.foldlM Script.Emitter.instr .initial = .ok e ∧ e.scopes = s

theorem ok_of_foldlM_append {σ : Type} {step : σ → Instr → Except CodeError σ} {before rest : List Instr} {e r : σ}
    (h : (before ++ rest).foldlM step e = .ok r) : ∃ e', before.foldlM step e = .ok e' := by
  rw [List.foldlM_append] at h
  obtain ⟨e', he', -⟩ := ok_of_bind h
  exact ⟨e', he'⟩

/-- Readers that take all of a code are in the same scopes anywhere in it. -/
theorem ReadersAt.of_accepted {before rest : List Instr} {J : Replay.JumpCode}
    {w : StackModule.Writer} (hJ : Replay.JumpCode.ofCode (before ++ rest) = .ok J)
    (hw : StackModule.Writer.ofCode (before ++ rest) = .ok w) :
    ReadersAt before (Scopes.initial.afterAll before) := by
  obtain ⟨l, hl⟩ : ∃ l, before.foldlM Replay.Lowering.instr .initial = .ok l := by
    obtain ⟨l, hl, -⟩ := ok_of_bind hJ
    exact ok_of_foldlM_append hl
  obtain ⟨w, hw⟩ : ∃ w, before.foldlM StackModule.Writer.instr .initial = .ok w := by
    obtain ⟨w, hw, -⟩ := ok_of_bind hw
    exact ok_of_foldlM_append hw
  have hmodule := Scopes.of_foldlM StackModule.Writer.scopes_instr hw
  refine ⟨⟨l, hl, Scopes.of_foldlM Replay.Lowering.scopes_instr hl⟩, ⟨w, hw, hmodule⟩, ?_⟩
  rcases EmitterLike.initial.run before with ⟨w1, e, hw1, he, hlike⟩ |
    ⟨first, i, last, w1, e, err, err', hcode, hw1, -, -, hi, -⟩
  · obtain rfl := Except.ok.inj (hw.symm.trans hw1)
    exact ⟨e, he, hlike.scopes.trans hmodule⟩
  · rw [hcode, foldlM_of_stop hw1 hi] at hw
    cases hw

theorem mem_placed {s : Scopes} {code : List Instr} {c : Placed} (h : c ∈ placed s code) :
    ∃ before, code = before ++ c.instr :: c.behind ∧ c.scopes = s.afterAll before := by
  induction code generalizing s with
  | nil => cases h
  | cons i code ih =>
    unfold placed at h
    rcases List.mem_cons.mp h with rfl | h
    · exact ⟨[], rfl, rfl⟩
    · obtain ⟨before, hcode, hs⟩ := ih h
      exact ⟨i :: before, by rw [hcode, List.cons_append], by rw [hs, Scopes.afterAll_cons]⟩

namespace Program

/-- The uses of names in a program are those in its code, one by one and in order. At each of them the scopes
resolve the name to the scope that declares the symbol which the analysis finds there, and these are the scopes in
which all readers of the code are. -/
theorem names_resolve_alike {source : String} {p : Program} {t : Table} (hp : Program.ofSource source = .ok p)
    (ht : p.analyze = .ok t) :
    List.Forall₂ (Reference.Resolved t) p.references (usesIn p.code) ∧
      ∀ c ∈ usesIn p.code, ∃ before, p.code = before ++ c.instr :: c.behind ∧
        c.scopes = Scopes.initial.afterAll before ∧ ReadersAt before c.scopes := by
  have hscoped := Program.scoped_of_source hp ht
  obtain ⟨M, w, hw, -⟩ := p.emits hscoped
  obtain ⟨J, hJ, -⟩ := p.lowers hscoped
  refine ⟨(Program.agree ht).references, ?_⟩
  intro c hc
  obtain ⟨before, hcode, hs⟩ := mem_placed (List.mem_filter.mp hc).1
  rw [hcode] at hJ hw
  exact ⟨before, hcode, hs, hs ▸ ReadersAt.of_accepted hJ hw⟩

/-- Inside `p` the variable `x` is assigned before a procedure hides it, in which a variable hides `p`. -/
theorem names_resolve_alike_hidden : ∃ p t,
    Program.ofSource "var x; procedure p; begin x := 1; procedure x; var p; p := 2; call x; end; call p;" = .ok p ∧
      p.analyze = .ok t ∧ List.Forall₂ (Reference.Resolved t) p.references (usesIn p.code) ∧
      ∀ c ∈ usesIn p.code, ∃ before, p.code = before ++ c.instr :: c.behind ∧
        c.scopes = Scopes.initial.afterAll before ∧ ReadersAt before c.scopes := by
  obtain ⟨p, t, hp, ht⟩ : ∃ p t,
      Program.ofSource "var x; procedure p; begin x := 1; procedure x; var p; p := 2; call x; end; call p;" = .ok p ∧
        p.analyze = .ok t := ⟨_, _, rfl, rfl⟩
  exact ⟨p, t, hp, ht, names_resolve_alike hp ht⟩

end Program

end PLZero
