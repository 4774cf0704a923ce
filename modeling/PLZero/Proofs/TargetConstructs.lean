import PLZero.Proofs.Lockstep
import PLZero.Proofs.ScriptScopes

/-! Target texts and constructs. An emitter looks only at the kind of the innermost open marker, so it reads code along
with its constructs; code that a target text is made of has its markers nested. -/

namespace PLZero

namespace Script

namespace Frame

def kind : Frame → ControlKind
  | .procedure _ => .procedure
  | .branch _ => .conditional
  | .whileLoop _ => .whileLoop
  | .forLoop .. => .forLoop

variable {f : Frame}

theorem kind_of_procedure? {d : Draft} (h : f.procedure? = some d) : f.kind = .procedure := by
  cases f <;> first | rfl | cases h

theorem kind_of_branch? {b : Bool} (h : f.branch? = some b) : f.kind = .conditional := by
  cases f <;> first | rfl | cases h

theorem kind_of_while? {line : Nat} (h : f.while? = some line) : f.kind = .whileLoop := by
  cases f <;> first | rfl | cases h

theorem kind_of_for? {b : String × Folded} (h : f.for? = some b) : f.kind = .forLoop := by
  cases f <;> first | rfl | cases h

end Frame

namespace Emitter

variable {e e' : Emitter} {i : Instr}

theorem markers_of_pop {r : Folded × Emitter} (h : e.pop i = .ok r) : r.2.markers = e.markers := by
  obtain ⟨stack, -, hr⟩ := of_pop h
  rw [hr]

theorem markers_declare (e : Emitter) (name : String) (s : Statement) (i : Instr) :
    (e.declare name s i).markers = e.markers := by
  simp only [declare]
  split <;> rfl

theorem of_checkBranch {u : Unit} (h : e.checkBranch i = .ok u) :
    ∃ o rest, e.markers = o :: rest ∧ o.frame.kind = .conditional := by
  obtain ⟨hasElse, htop, -⟩ := ok_of_bind h
  obtain ⟨o, rest, hm, ho⟩ := Markers.of_top htop
  exact ⟨o, rest, hm, Frame.kind_of_branch? ho⟩

theorem closes_of_pop {β : Type} {select : Frame → Option β} {r : β × Markers Frame} {k : ControlKind}
    (h : e.markers.pop i select = .ok r) (hkind : ∀ {f b}, select f = some b → f.kind = k) :
    Role.Changes Frame.kind (.closes k) e.markers r.2 := by
  obtain ⟨o, hm, ho⟩ := Markers.of_pop h
  exact ⟨o, hkind ho, hm⟩

/-- What an instruction does to the open markers depends on its role. -/
theorem changes (h : e.instr i = .ok e') : i.op.role.Changes Frame.kind e.markers e'.markers := by
  obtain ⟨op, line⟩ := i
  cases op with
  | declare name | const name value =>
    cases h
    exact markers_declare ..
  | push value =>
    cases h
    rfl
  | load name | read name =>
    obtain ⟨id, -, h⟩ := ok_of_bind h
    cases h
    rfl
  | call name =>
    obtain ⟨u, -, h⟩ := ok_of_bind h
    cases h
    rfl
  | oper op =>
    obtain ⟨r, hr, h⟩ := ok_of_bind h
    obtain ⟨l, hl, h⟩ := ok_of_bind h
    cases h
    exact (markers_of_pop hl).trans (markers_of_pop hr)
  | store name =>
    obtain ⟨id, -, h⟩ := ok_of_bind h
    obtain ⟨r, hr, h⟩ := ok_of_bind h
    cases h
    exact markers_of_pop hr
  | write =>
    obtain ⟨r, hr, h⟩ := ok_of_bind h
    cases h
    exact markers_of_pop hr
  | procedureStart name =>
    cases h
    exact ⟨_, rfl, rfl⟩
  | whileMark =>
    cases h
    exact ⟨_, rfl, rfl⟩
  | ifMark =>
    obtain ⟨r, hr, h⟩ := ok_of_bind h
    cases h
    exact ⟨_, rfl, congrArg _ (markers_of_pop hr)⟩
  | forInit name =>
    obtain ⟨id, -, h⟩ := ok_of_bind h
    obtain ⟨r, hr, h⟩ := ok_of_bind h
    cases h
    exact ⟨_, rfl, congrArg _ (markers_of_pop hr)⟩
  | elseIf =>
    obtain ⟨u, hbranch, h⟩ := ok_of_bind h
    obtain ⟨r, hr, h⟩ := ok_of_bind h
    cases h
    obtain ⟨o, rest, hm, hk⟩ := of_checkBranch hbranch
    exact ⟨o, o, rest, hk, hk, hm, (markers_of_pop hr).trans hm⟩
  | elseMark =>
    obtain ⟨u, hbranch, h⟩ := ok_of_bind h
    cases h
    obtain ⟨o, rest, hm, hk⟩ := of_checkBranch hbranch
    exact ⟨o, _, rest, hk, rfl, hm, by rw [hm]; rfl⟩
  | doMark =>
    obtain ⟨start, htop, h⟩ := ok_of_bind h
    obtain ⟨r, hr, h⟩ := ok_of_bind h
    cases h
    obtain ⟨o, rest, hm, ho⟩ := Markers.of_top htop
    have hk := Frame.kind_of_while? ho
    exact ⟨o, o, rest, hk, hk, hm, (markers_of_pop hr).trans hm⟩
  | forTo name =>
    obtain ⟨r, hr, h⟩ := ok_of_bind h
    obtain ⟨b, htop, h⟩ := ok_of_bind h
    cases h
    rw [markers_of_pop hr] at htop
    obtain ⟨o, rest, hm, ho⟩ := Markers.of_top htop
    have hk := Frame.kind_of_for? ho
    exact ⟨o, o, rest, hk, hk, hm, (markers_of_pop hr).trans hm⟩
  | procedureEnd name =>
    obtain ⟨r, hr, h⟩ := ok_of_bind h
    have hmarkers : e'.markers = r.2 := by
      simp only at h
      split at h <;> cases h <;> rfl
    rw [hmarkers]
    exact closes_of_pop hr Frame.kind_of_procedure?
  | endIf =>
    obtain ⟨r, hr, h⟩ := ok_of_bind h
    cases h
    exact closes_of_pop hr Frame.kind_of_branch?
  | endWhile =>
    obtain ⟨r, hr, h⟩ := ok_of_bind h
    cases h
    exact closes_of_pop hr Frame.kind_of_while?
  | endFor name =>
    obtain ⟨r, hr, h⟩ := ok_of_bind h
    cases h
    exact closes_of_pop hr Frame.kind_of_for?

theorem follow {code : List Instr} {r : MarkerRun} (h : code.foldlM instr e = .ok e')
    (hm : e.markers.Follow Frame.kind r.markers) :
    ∃ r', code.foldlM MarkerRun.instr r = .ok r' ∧ e'.markers.Follow Frame.kind r'.markers :=
  MarkerRun.simulates (R := fun e r => e.markers.Follow Frame.kind r.markers) (fun hi hm => (changes hi).follow hm) h hm

theorem constructs_of_run {code : List Instr} (h : code.foldlM instr .initial = .ok e) (hm : e.markers = []) :
    ∃ cs, constructs code = .ok cs := by
  obtain ⟨⟨markers, cs⟩, hr, hfollow⟩ := follow (r := .initial) h .nil
  rw [hm] at hfollow
  cases hfollow
  exact ⟨cs, constructs_eq hr⟩

end Emitter

end Script

/-- Code that a target text is made of has constructs. -/
theorem Target.constructs_of_render {code : List Instr} {t : Target} {out : String × List String}
    (h : t.render code = .ok out) : ∃ cs, constructs code = .ok cs := by
  cases t with
  | script =>
    obtain ⟨s, hs, -⟩ := ok_of_bind h
    obtain ⟨e, he, hs⟩ := ok_of_bind hs
    obtain ⟨u, hfinish, -⟩ := ok_of_bind hs
    exact Script.Emitter.constructs_of_run he (Markers.of_finish hfinish)
  | stackModule =>
    obtain ⟨w, hw, -⟩ := ok_of_bind h
    obtain ⟨e, he, hw⟩ := ok_of_bind hw
    obtain ⟨u, hfinish, -⟩ := ok_of_bind hw
    rcases EmitterLike.initial.run code with ⟨m, e', hm, he', hlike⟩ |
      ⟨before, i, after, m, e', err, err', hcode, hm, he', hlike, hi, -⟩
    · obtain rfl := Except.ok.inj (he.symm.trans hm)
      have hmarkers := hlike.markers
      rw [Markers.of_finish hfinish] at hmarkers
      exact Script.Emitter.constructs_of_run he' (List.forall₂_nil_left_iff.mp hmarkers)
    · rw [hcode, foldlM_of_stop hm hi] at he
      cases he

end PLZero
