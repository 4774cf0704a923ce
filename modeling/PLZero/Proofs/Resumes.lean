import PLZero.Proofs.Flow

/-! Which procedure the steps of jump code belong to. From the start of a procedure's body, no jump leads out
of the body and none leads into the body of a procedure inside it; the variables that its steps name and the
procedures that it calls are declared in the procedures around it. -/

namespace PLZero

namespace Replay

variable {step : Step}

/-- A step that the procedure with this path can have. -/
def Fits (J : JumpCode) (ps : List (List String)) (path : List String) : Step → Prop
  | .declare v | .const v _ | .load v | .store v | .read v | .forTest v _ | .forStep v _ =>
    ∃ scope, scope <+: path ∧ v.owner = owner ps scope
  | .call n => ∃ home outer name body, home.path <+: path ∧ n = ps.idxOf (home.path ++ [name]) ∧
    Standing J ps home outer name body ∧ Setting J ps (home :: outer) (home.inside name)
  | _ => True

/-- The procedure with this path goes on at a position: every step from there on is its own. -/
inductive Resumes (J : JumpCode) (ps : List (List String)) : List String → Nat → Prop
  | ended : Resumes J ps [] J.code.size
  | step {path : List String} {i : Nat} {step : Step} {line : Option Nat} (hs : J.StepAt i step line)
    (hfits : Fits J ps path step) (h : ∀ j ∈ step.successors i, Resumes J ps path j) : Resumes J ps path i
  -- where a loop goes back to, given where it ends
  | loop {outer : List Layer} {l : Layer} {guard : Expr} {body : List Stmt} {test back : Step}
    {line line' : Option Nat} {i a b k : Nat} (hset : Setting J ps outer l)
    (hguard : guard.At J ps (l :: outer) i a) (hscoped : guard.Scoped (l :: outer))
    (htest : J.StepAt a test line) (htestFits : Fits J ps l.path test) (htestNext : test.successors a = [k, a + 1])
    (hbody : Stmt.AtAll J ps outer l body (a + 1) b) (hbodyScoped : Stmt.ScopedAll outer l body)
    (hback : J.StepAt b back line') (hbackFits : Fits J ps l.path back) (hbackNext : back.successors b = [i])
    (hexit : Resumes J ps l.path k) : Resumes J ps l.path i

def First (J : JumpCode) (ps : List (List String)) (path : List String) (i : Nat) : Prop :=
  ∃ step line, J.StepAt i step line ∧ Fits J ps path step ∧ ∀ j ∈ step.successors i, Resumes J ps path j

variable {J : JumpCode} {ps : List (List String)} {path : List String} {layers outer : List Layer} {l : Layer}
  {i k : Nat} {line : Option Nat} {name : String}

theorem First.resumes (h : First J ps path i) : Resumes J ps path i := by
  obtain ⟨step, line, hs, hfits, hnext⟩ := h
  exact .step hs hfits hnext

theorem First.one (hs : J.StepAt i step line) (hfits : Fits J ps path step)
    (hnext : step.successors i = [k]) (h : Resumes J ps path k) : First J ps path i := by
  refine ⟨step, line, hs, hfits, fun j hj => ?_⟩
  rw [hnext, List.mem_singleton] at hj
  exact hj ▸ h

theorem First.two {k' : Nat} (hs : J.StepAt i step line) (hfits : Fits J ps path step)
    (hnext : step.successors i = [k, k']) (h : Resumes J ps path k) (h' : Resumes J ps path k') :
    First J ps path i := by
  refine ⟨step, line, hs, hfits, fun j hj => ?_⟩
  rw [hnext] at hj
  rcases List.mem_cons.mp hj with rfl | hj
  · exact h
  · exact List.mem_singleton.mp hj ▸ h'

/-- The scope of a name in sight is around the place. -/
theorem Nested.owner_of_lookup {f : Found} (h : Nested ps (l :: outer)) (hf : lookup (l :: outer) name = some f) :
    ∃ scope, scope <+: l.path ∧ (varRef ps (l :: outer) name).owner = owner ps scope := by
  obtain ⟨-, l', hdrop, hpath, -⟩ := lookup_home hf
  refine ⟨f.home.path, ?_, by rw [varRef_of_lookup hf]⟩
  rw [hpath]
  exact h.path_of_mem (List.mem_of_mem_drop (hdrop ▸ List.mem_cons_self))

theorem Nested.owner_of_assignable (h : Nested ps (l :: outer)) (ha : Assignable (l :: outer) name) :
    ∃ scope, scope <+: l.path ∧ (varRef ps (l :: outer) name).owner = owner ps scope := by
  obtain ⟨f, hf, -⟩ := ha
  exact h.owner_of_lookup hf

theorem Setting.fits_call (h : Setting J ps outer l) (hc : Callable (l :: outer) name) :
    Fits J ps l.path (.call (procedureNumber ps (l :: outer) name)) := by
  obtain ⟨f, body, hf, he⟩ := hc
  obtain ⟨hstanding, hinside⟩ := h.callee hf he
  obtain ⟨-, l', hdrop, hpath, -⟩ := lookup_home hf
  refine ⟨f.home, f.outer, name, body, ?_, by simp [procedureNumber, hf], hstanding, hinside⟩
  rw [hpath]
  exact h.nested.path_of_mem (List.mem_of_mem_drop (hdrop ▸ List.mem_cons_self))

theorem Allowed.fits (hset : Setting J ps outer l) (h : Allowed ps (l :: outer) step) :
    Fits J ps l.path step := by
  cases step with
  | load v =>
    obtain ⟨name, ⟨f, hf, -⟩, rfl⟩ := h
    exact hset.nested.owner_of_lookup hf
  | store v | read v | forTest v _ | forStep v _ =>
    obtain ⟨name, ha, rfl⟩ := h
    exact hset.nested.owner_of_assignable ha
  | call n =>
    obtain ⟨name, hc, rfl⟩ := h
    exact hset.fits_call hc
  | push _ | oper _ | write | jump _ | jumpIfFalse _ => trivial
  | declare _ | const _ _ | leave => exact h.elim

/-- Going on is handed back over the steps of a procedure. -/
theorem Resumes.flow (J : JumpCode) (ps : List (List String)) :
    Flow J ps (fun _ => True) fun _ l i => Resumes J ps l.path i where
  procedure := Iff.rfl
  step hg hs ha hnext := .step hs (ha.fits hg.setting) hnext
  declare _ _ hs h := (First.one hs ⟨_, List.prefix_rfl, rfl⟩ rfl h).resumes
  const _ _ hs h := (First.one hs ⟨_, List.prefix_rfl, rfl⟩ rfl h).resumes
  loop hg hguard hscoped htest htestOk htestNext hbody hbodyScoped _ hback hbackOk hbackNext hexit :=
    .loop hg.setting hguard hscoped htest (htestOk.fits hg.setting) htestNext hbody hbodyScoped hback
      (hbackOk.fits hg.setting) hbackNext hexit

/-- A procedure goes on with one step, unless it is the program and has come to its end. -/
theorem Resumes.first (h : Resumes J ps path i) : First J ps path i ∨ i = J.code.size := by
  cases h with
  | ended => exact .inr rfl
  | step hs hfits hnext => exact .inl ⟨_, _, hs, hfits, hnext⟩
  | @loop outer l guard body _ _ _ _ _ a b _ hset hguard hscoped htest htestFits htestNext hbody hbodyScoped hback
      hbackFits hbackNext hexit =>
    have hhead := Resumes.loop hset hguard hscoped htest htestFits htestNext hbody hbodyScoped hback hbackFits
      hbackNext hexit
    have hb := (First.one hback hbackFits hbackNext hhead).resumes
    have hbody' := Stmt.flowAll (Resumes.flow J ps) body hbody hbodyScoped (fun _ _ => trivial) hset.ground hb
    have ha := (First.two htest htestFits htestNext hexit hbody').resumes
    obtain ⟨step, line, hs, hok, hnext⟩ := Expr.firstStep (Resumes.flow J ps) hset.ground hguard hscoped ha
    exact .inl ⟨step, line, hs, hok.fits hset, hnext⟩

theorem Standing.resumes {home : Layer} {body : Block} (h : Standing J ps home outer name body)
    (hset : Setting J ps (home :: outer) (home.inside name)) :
    home.path ++ [name] ∈ ps ∧ ∃ text entry, J.procedures[ps.idxOf (home.path ++ [name])]? = some ⟨text, entry⟩ ∧
      Resumes J ps (home.path ++ [name]) entry := by
  obtain ⟨hscoped, i, k, ⟨hmem, text, hentry⟩, hat, hleave⟩ := h
  have hk : Resumes J ps (home.path ++ [name]) k := .step hleave trivial (by simp [Step.successors])
  refine ⟨hmem, text, i, hentry, Block.flow (Resumes.flow J ps) hat hscoped (fun _ _ => trivial) hset.ground ?_⟩
  rw [Block.after_path]
  exact hk

end Replay

open Replay

theorem Program.resumes {p : Program} {J : JumpCode} (h : p.Scoped)
    (hat : Block.AtAll J (procedurePaths p.declared) [] .initial p.blocks 0 J.code.size) :
    Resumes J (procedurePaths p.declared) [] 0 := by
  refine Block.flowAll (Resumes.flow J _) hat h (fun _ _ => trivial) .initial ?_
  rw [Block.afterAll_path]
  exact .ended

end PLZero
