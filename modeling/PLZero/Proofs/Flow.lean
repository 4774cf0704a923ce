import PLZero.Proofs.Moves
import PLZero.Proofs.ReplayMeaning

/-! Control in jump code. What holds where a part of a program ends holds where it begins, if it is handed on by
every single step and by loops: a principle for what a procedure does from a position on, as long as its own steps
run. What a call does until it returns is left out. -/

namespace PLZero

namespace Replay

/-- A step that can stand in these scopes; declarations and returns are apart. -/
def Allowed (ps : List (List String)) (layers : List Layer) : Step → Prop
  | .load v => ∃ name, Readable layers name ∧ v = varRef ps layers name
  | .store v | .read v | .forTest v _ | .forStep v _ => ∃ name, Assignable layers name ∧ v = varRef ps layers name
  | .call n => ∃ name, Callable layers name ∧ n = procedureNumber ps layers name
  | .push _ | .oper _ | .write | .jump _ | .jumpIfFalse _ => True
  | .declare _ | .const _ _ | .leave => False

/-- All that a procedure declares, at every depth, is in the catalogue. -/
def Catalogued (D : Declared → Prop) (home : Layer) (outer : List Layer) (name : String) (body : Block) : Prop :=
  ∀ d ∈ body.declared (home :: outer) (home.inside name), D d

/-- Scopes whose procedures can be called, with the catalogue of what they declare. -/
structure Ground (J : JumpCode) (ps : List (List String)) (D : Declared → Prop) (outer : List Layer) (l : Layer) :
    Prop where
  setting : Setting J ps outer l
  known : ∀ k ∈ l :: outer, ∀ e ∈ k.entries, e.isProcedure = false → D (k.path, e)
  procedures : EachProcedure (Catalogued D) (l :: outer)

/-- A property of places, each given by its scopes and its position, that is handed back over the steps of a
procedure. It does not depend on the procedures that are in sight. -/
structure Flow (J : JumpCode) (ps : List (List String)) (D : Declared → Prop)
    (R : List Layer → Layer → Nat → Prop) : Prop where
  procedure : ∀ {outer l name body i}, R outer (l.add (.procedure name body)) i ↔ R outer l i
  step : ∀ {outer l i step line}, Ground J ps D outer l → J.StepAt i step line → Allowed ps (l :: outer) step →
    (∀ j ∈ step.successors i, R outer l j) → R outer l i
  declare : ∀ {outer l i name line}, Ground J ps D outer l → D (l.path, .var name) →
    J.StepAt i (.declare ⟨owner ps l.path, name⟩) line → R outer (l.add (.var name)) (i + 1) → R outer l i
  const : ∀ {outer l i name v line}, Ground J ps D outer l → D (l.path, .const name v) →
    J.StepAt i (.const ⟨owner ps l.path, name⟩ v) line → R outer (l.add (.const name v)) (i + 1) → R outer l i
  -- where a loop goes back to, given where it ends
  loop : ∀ {outer : List Layer} {l : Layer} {guard : Expr} {body : List Stmt} {test back : Step}
    {line line' : Option Nat} {i a b k : Nat}, Ground J ps D outer l → guard.At J ps (l :: outer) i a →
    guard.Scoped (l :: outer) → J.StepAt a test line → Allowed ps (l :: outer) test →
    test.successors a = [k, a + 1] → Stmt.AtAll J ps outer l body (a + 1) b → Stmt.ScopedAll outer l body →
    (∀ d ∈ Stmt.declaredAll outer l body, D d) → J.StepAt b back line' → Allowed ps (l :: outer) back →
    back.successors b = [i] → R outer l k → R outer l i

end Replay

open Replay

variable {D : Declared → Prop} {outer : List Layer}

mutual

/-- The procedures that a statement declares are in the catalogue if all is that the statement declares. -/
theorem Stmt.catalogued {D : Declared → Prop} {outer : List Layer} {l : Layer} (s : Stmt)
    (hd : ∀ d ∈ s.declared outer l, D d) (h : EachProcedure (Catalogued D) (l :: outer)) :
    EachProcedure (Catalogued D) (s.after l :: outer) := by
  match s with
  | .assign .. | .read .. | .write .. | .call .. => exact h
  | .ifElse _ body elseIfs (some other) _ =>
    obtain ⟨hd, hdo⟩ := List.forall_mem_append.mp hd
    obtain ⟨hdb, hde⟩ := List.forall_mem_append.mp hd
    exact Stmt.cataloguedAll other hdo (ElseIf.cataloguedAll elseIfs hde (Stmt.cataloguedAll body hdb h))
  | .ifElse _ body elseIfs none _ =>
    obtain ⟨hd, -⟩ := List.forall_mem_append.mp hd
    obtain ⟨hdb, hde⟩ := List.forall_mem_append.mp hd
    exact ElseIf.cataloguedAll elseIfs hde (Stmt.cataloguedAll body hdb h)
  | .whileDo _ body _ => exact Stmt.cataloguedAll body hd h
  | .forTo _ _ _ body _ => exact Stmt.cataloguedAll body hd h
  | .group body _ => exact Stmt.cataloguedAll body hd h
  | .procedure name body _ => exact h.add_procedure (List.forall_mem_cons.mp hd).2

theorem Stmt.cataloguedAll {D : Declared → Prop} {outer : List Layer} {l : Layer} (ss : List Stmt)
    (hd : ∀ d ∈ Stmt.declaredAll outer l ss, D d) (h : EachProcedure (Catalogued D) (l :: outer)) :
    EachProcedure (Catalogued D) (Stmt.afterAll l ss :: outer) := by
  match ss with
  | [] => exact h
  | s :: ss =>
    obtain ⟨hds, hdss⟩ := List.forall_mem_append.mp hd
    exact Stmt.cataloguedAll ss hdss (Stmt.catalogued s hds h)

theorem ElseIf.cataloguedAll {D : Declared → Prop} {outer : List Layer} {l : Layer} (es : List ElseIf)
    (hd : ∀ d ∈ ElseIf.declaredAll outer l es, D d) (h : EachProcedure (Catalogued D) (l :: outer)) :
    EachProcedure (Catalogued D) (ElseIf.afterAll l es :: outer) := by
  match es with
  | [] => exact h
  | ⟨_, body, _⟩ :: others =>
    obtain ⟨hdb, hdo⟩ := List.forall_mem_append.mp hd
    exact ElseIf.cataloguedAll others hdo (Stmt.cataloguedAll body hdb h)

end

namespace Replay

variable {J : JumpCode} {ps : List (List String)} {l : Layer} {i k : Nat}

namespace Ground

theorem initial : Ground J ps D [] .initial where
  setting := ⟨rfl, .initial⟩
  known k hk e he := by
    obtain rfl := List.mem_singleton.mp hk
    cases he
  procedures := .initial

/-- With another innermost scope that declares nothing new but procedures. -/
theorem of_setting {l' : Layer} (h : Ground J ps D outer l) (hset : Setting J ps outer l') (hp : l'.path = l.path)
    (hmem : ∀ e ∈ l'.entries, e.isProcedure = false → e ∈ l.entries)
    (hproc : EachProcedure (Catalogued D) (l' :: outer)) : Ground J ps D outer l' := by
  refine ⟨hset, ?_, hproc⟩
  intro c hc e he hb
  rcases List.mem_cons.mp hc with rfl | hc
  · exact hp ▸ h.known l List.mem_cons_self e (hmem e he hb) hb
  · exact h.known c (List.mem_cons_of_mem _ hc) e he hb

theorem after {s : Stmt} (h : Ground J ps D outer l) (hat : s.At J ps outer l i k) (hs : s.Scoped outer l)
    (hd : ∀ d ∈ s.declared outer l, D d) : Ground J ps D outer (s.after l) :=
  h.of_setting (Stmt.setting s hat hs h.setting) (Stmt.after_path l s) (fun _ he hb => Stmt.mem_of_mem_after he hb)
    (Stmt.catalogued s hd h.procedures)

theorem afterAll {ss : List Stmt} (h : Ground J ps D outer l) (hat : Stmt.AtAll J ps outer l ss i k)
    (hs : Stmt.ScopedAll outer l ss) (hd : ∀ d ∈ Stmt.declaredAll outer l ss, D d) :
    Ground J ps D outer (Stmt.afterAll l ss) := by
  -- statements in a row are one statement
  have hgroup : Ground J ps D outer ((Stmt.group ss 0).after l) := h.after (s := .group ss 0) hat hs hd
  exact hgroup

theorem declare {e : ScopeEntry} (h : Ground J ps D outer l) (he : e.isProcedure = false) (hd : D (l.path, e)) :
    Ground J ps D outer (l.add e) where
  setting := ⟨h.setting.nested.congr rfl, h.setting.procedures.add_binding he⟩
  known c hc d hm hb := by
    rcases List.mem_cons.mp hc with rfl | hc
    · rcases List.mem_cons.mp hm with rfl | hm
      · exact hd
      · exact h.known l List.mem_cons_self d hm hb
    · exact h.known c (List.mem_cons_of_mem _ hc) d hm hb
  procedures := h.procedures.add_binding he

theorem decls {ds : List Decl} (h : Ground J ps D outer l) (hd : ∀ d ∈ Decl.declaredAll outer l ds, D d) :
    Ground J ps D outer (Decl.afterAll outer l ds) := by
  induction ds generalizing l with
  | nil => exact h
  | cons d ds ih =>
    obtain ⟨hd, hds⟩ := List.forall_mem_cons.mp hd
    exact ih (h.declare (by cases d <;> rfl) hd) hds

/-- What a name in sight means is in the catalogue. -/
theorem known_of_lookup {name : String} {f : Found} (h : Ground J ps D outer l)
    (hf : lookup (l :: outer) name = some f) (hb : f.entry.isProcedure = false) : D (f.home.path, f.entry) := by
  obtain ⟨-, c, hdrop, hpath, hs, rest, hrest⟩ := lookup_home hf
  rw [hpath]
  refine h.known c (List.mem_of_mem_drop (hdrop ▸ List.mem_cons_self)) _ (hs.subset ?_) hb
  rw [hrest]
  exact List.mem_cons_self

theorem callee {name : String} {f : Found} {body : Block} (h : Ground J ps D outer l)
    (hf : lookup (l :: outer) name = some f) (he : f.entry = .procedure name body) :
    Standing J ps f.home f.outer name body ∧ Catalogued D f.home f.outer name body ∧
      Ground J ps D (f.home :: f.outer) (f.home.inside name) := by
  obtain ⟨hstanding, hset⟩ := h.setting.callee hf he
  obtain ⟨hcat, heach⟩ := h.procedures.lookup hf he
  obtain ⟨-, c, hdrop, hpath, hs, -⟩ := lookup_home hf
  refine ⟨hstanding, hcat, hset, ?_, heach.inside name⟩
  intro b hb e hm hnot
  rcases List.mem_cons.mp hb with rfl | hb
  · cases hm
  · rcases List.mem_cons.mp hb with rfl | hb
    · rw [hpath]
      exact h.known c (List.mem_of_mem_drop (hdrop ▸ List.mem_cons_self)) e (hs.subset hm) hnot
    · exact h.known b (List.mem_of_mem_drop (hdrop ▸ List.mem_cons_of_mem _ hb)) e hm hnot

end Ground

theorem Setting.ground (h : Setting J ps outer l) : Ground J ps (fun _ => True) outer l := by
  have heach (layers : List Layer) : EachProcedure (Catalogued fun _ => True) layers := by
    induction layers with
    | nil => trivial
    | cons _ _ ih => exact ⟨fun _ _ _ _ _ _ => trivial, ih⟩
  exact ⟨h, fun _ _ _ _ _ => trivial, heach _⟩

/-- The first step from a place on, behind which the property holds. -/
def FirstStep (J : JumpCode) (ps : List (List String)) (R : List Layer → Layer → Nat → Prop) (outer : List Layer)
    (l : Layer) (i : Nat) : Prop :=
  ∃ step line, J.StepAt i step line ∧ Allowed ps (l :: outer) step ∧ ∀ j ∈ step.successors i, R outer l j

variable {R : List Layer → Layer → Nat → Prop} {step : Step} {line : Option Nat}

theorem FirstStep.one (hs : J.StepAt i step line) (ha : Allowed ps (l :: outer) step)
    (hnext : step.successors i = [k]) (h : R outer l k) : FirstStep J ps R outer l i := by
  refine ⟨step, line, hs, ha, ?_⟩
  intro j hj
  rw [hnext, List.mem_singleton] at hj
  exact hj ▸ h

theorem FirstStep.two {k' : Nat} (hs : J.StepAt i step line) (ha : Allowed ps (l :: outer) step)
    (hnext : step.successors i = [k, k']) (h : R outer l k) (h' : R outer l k') : FirstStep J ps R outer l i := by
  refine ⟨step, line, hs, ha, ?_⟩
  intro j hj
  rw [hnext] at hj
  rcases List.mem_cons.mp hj with rfl | hj
  · exact h
  · exact List.mem_singleton.mp hj ▸ h'

namespace Flow

variable (F : Flow J ps D R)

include F

theorem one (hg : Ground J ps D outer l) (hs : J.StepAt i step line) (ha : Allowed ps (l :: outer) step)
    (hnext : step.successors i = [k]) (h : R outer l k) : R outer l i := by
  obtain ⟨step, line, hs, ha, hnext⟩ := FirstStep.one (R := R) hs ha hnext h
  exact F.step hg hs ha hnext

theorem two {k' : Nat} (hg : Ground J ps D outer l) (hs : J.StepAt i step line) (ha : Allowed ps (l :: outer) step)
    (hnext : step.successors i = [k, k']) (h : R outer l k) (h' : R outer l k') : R outer l i := by
  obtain ⟨step, line, hs, ha, hnext⟩ := FirstStep.two (R := R) hs ha hnext h h'
  exact F.step hg hs ha hnext

theorem after (s : Stmt) : R outer (s.after l) i ↔ R outer l i :=
  Stmt.after_induct (P := fun l' => R outer l' i ↔ R outer l i) (fun _ _ _ h => F.procedure.trans h) Iff.rfl s

theorem afterAll (ss : List Stmt) : R outer (Stmt.afterAll l ss) i ↔ R outer l i :=
  Stmt.afterAll_induct (P := fun l' => R outer l' i ↔ R outer l i) (fun _ _ _ h => F.procedure.trans h) Iff.rfl ss

theorem afterElseIfs (es : List ElseIf) : R outer (ElseIf.afterAll l es) i ↔ R outer l i :=
  ElseIf.afterAll_induct (P := fun l' => R outer l' i ↔ R outer l i) (fun _ _ _ h => F.procedure.trans h) Iff.rfl es

end Flow

end Replay

section

variable {J : JumpCode} {ps : List (List String)} {R : List Layer → Layer → Nat → Prop} {l : Layer}
  {i k : Nat} (F : Flow J ps D R)

include F

theorem Expr.firstStep {e : Expr} (hg : Ground J ps D outer l) (hat : e.At J ps (l :: outer) i k)
    (hs : e.Scoped (l :: outer)) (h : R outer l k) : FirstStep J ps R outer l i := by
  induction e generalizing i k with
  | binary op left right line ihl ihr =>
    obtain ⟨j, m, hl, hr, hop, rfl⟩ := hat
    have hm : R outer l m := F.one hg hop trivial rfl h
    obtain ⟨step, line', hj, ha, hnext⟩ := ihr hr hs.2 hm
    exact ihl hl hs.1 (F.step hg hj ha hnext)
  | literal value line =>
    obtain ⟨hat, rfl⟩ := hat
    exact .one hat trivial rfl h
  | ident name line =>
    obtain ⟨hat, rfl⟩ := hat
    exact .one hat ⟨name, hs, rfl⟩ rfl h

theorem Expr.flow {e : Expr} (hg : Ground J ps D outer l) (hat : e.At J ps (l :: outer) i k)
    (hs : e.Scoped (l :: outer)) (h : R outer l k) : R outer l i := by
  obtain ⟨step, line, hstep, ha, hnext⟩ := Expr.firstStep F hg hat hs h
  exact F.step hg hstep ha hnext

theorem Expr.flow_writes {line : Nat} {es : List Expr} (hg : Ground J ps D outer l)
    (hat : Expr.WritesAt J ps (l :: outer) line es i k) (hs : ∀ e ∈ es, e.Scoped (l :: outer)) (h : R outer l k) :
    R outer l i := by
  induction es generalizing i with
  | nil => exact (show i = k from hat) ▸ h
  | cons e es ih =>
    obtain ⟨j, he, hw, hes⟩ := hat
    obtain ⟨hse, hses⟩ := List.forall_mem_cons.mp hs
    exact Expr.flow F hg he hse (F.one hg hw trivial rfl (ih hes hses))

theorem ReadsAt.flow {line : Nat} {names : List String} (hg : Ground J ps D outer l)
    (hat : ReadsAt J ps (l :: outer) line names i k) (hs : ∀ name ∈ names, Assignable (l :: outer) name)
    (h : R outer l k) : R outer l i := by
  induction names generalizing i with
  | nil => exact (show i = k from hat) ▸ h
  | cons name names ih =>
    obtain ⟨hr, hrest⟩ := hat
    obtain ⟨ha, hnames⟩ := List.forall_mem_cons.mp hs
    exact F.one hg hr ⟨name, ha, rfl⟩ rfl (ih hrest hnames)

theorem Decl.flow {d : Decl} (hg : Ground J ps D outer l) (hat : d.At J (l :: outer) (owner ps l.path) i k)
    (hd : D (l.path, d.entry (l :: outer))) (h : R outer (l.add (d.entry (l :: outer))) k) : R outer l i := by
  match d with
  | .const name init line =>
    obtain ⟨hs, rfl⟩ := hat
    exact F.const hg hd hs h
  | .var name none line =>
    obtain ⟨hs, rfl⟩ := hat
    exact F.declare hg hd hs h
  | .var name (some init) line =>
    obtain ⟨hdecl, hp, hs, rfl⟩ := hat
    have hg' : Ground J ps D outer (l.add (.var name)) := hg.declare rfl hd
    have hself : lookup (l.add (.var name) :: outer) name = some ⟨0, .var name, l.add (.var name), outer⟩ :=
      (lookup_add l (.var name) outer name).trans (if_pos rfl)
    have hstore : Allowed ps (l.add (.var name) :: outer) (.store ⟨owner ps l.path, name⟩) :=
      ⟨name, ⟨_, hself, rfl⟩, by rw [varRef_of_lookup hself]; rfl⟩
    exact F.declare hg hd hdecl (F.one hg' hp trivial rfl (F.one hg' hs hstore rfl h))

theorem Decl.flowAll {ds : List Decl} (hg : Ground J ps D outer l) (hat : Decl.AtAll J ps outer l ds i k)
    (hd : ∀ d ∈ Decl.declaredAll outer l ds, D d) (h : R outer (Decl.afterAll outer l ds) k) : R outer l i := by
  induction ds generalizing l i with
  | nil => exact (show i = k from hat) ▸ h
  | cons d ds ih =>
    obtain ⟨j, hfirst, hrest⟩ := hat
    obtain ⟨hd, hds⟩ := List.forall_mem_cons.mp hd
    exact Decl.flow F hg hfirst hd (ih (hg.declare (by cases d <;> rfl) hd) hrest hds h)

set_option linter.unusedSectionVars false

mutual

theorem Stmt.flow {l : Layer} {i k : Nat} (s : Stmt)
    (hat : s.At J ps outer l i k) (hs : s.Scoped outer l) (hd : ∀ d ∈ s.declared outer l, D d)
    (hg : Ground J ps D outer l) (h : R outer l k) : R outer l i := by
  match s with
  | .assign name value line =>
    obtain ⟨j, hv, hst, rfl⟩ := hat
    exact Expr.flow F hg hv hs.2 (F.one hg hst ⟨name, hs.1, rfl⟩ rfl h)
  | .ifElse cond body elseIfs (some other) line =>
    obtain ⟨a, b, next, hc, hj, hb, he⟩ := hat
    obtain ⟨hsc, hsb, hse, hso⟩ := hs
    obtain ⟨hd, hdo⟩ := List.forall_mem_append.mp hd
    obtain ⟨hdb, hde⟩ := List.forall_mem_append.mp hd
    have hg' := hg.afterAll hb hsb hdb
    obtain ⟨hb', hnext⟩ := ElseIf.flowAll elseIfs he hse hde hg' ((F.afterAll body).mpr h) fun hg'' hlast => by
      obtain ⟨hjump, rfl, ho⟩ := hlast
      have hexit := (F.afterElseIfs elseIfs).mpr ((F.afterAll body).mpr h)
      exact ⟨F.one hg'' hjump trivial rfl hexit, Stmt.flowAll other ho hso hdo hg'' hexit⟩
    rw [F.afterAll body] at hb' hnext
    exact Expr.flow F hg hc hsc (F.two hg hj trivial rfl hnext (Stmt.flowAll body hb hsb hdb hg hb'))
  | .ifElse cond body elseIfs none line =>
    obtain ⟨a, b, next, hc, hj, hb, he⟩ := hat
    obtain ⟨hsc, hsb, hse, -⟩ := hs
    obtain ⟨hd, -⟩ := List.forall_mem_append.mp hd
    obtain ⟨hdb, hde⟩ := List.forall_mem_append.mp hd
    have hg' := hg.afterAll hb hsb hdb
    obtain ⟨hb', hnext⟩ := ElseIf.flowAll elseIfs he hse hde hg' ((F.afterAll body).mpr h) fun _ hlast => by
      obtain ⟨rfl, rfl⟩ := hlast
      have hexit := (F.afterElseIfs elseIfs).mpr ((F.afterAll body).mpr h)
      exact ⟨hexit, hexit⟩
    rw [F.afterAll body] at hb' hnext
    exact Expr.flow F hg hc hsc (F.two hg hj trivial rfl hnext (Stmt.flowAll body hb hsb hdb hg hb'))
  | .whileDo cond body line =>
    obtain ⟨a, b, hc, hj, hb, hback, rfl⟩ := hat
    exact F.loop hg hc hs.1 hj trivial rfl hb hs.2 hd hback trivial rfl h
  | .forTo counter start bound body line =>
    obtain ⟨a, b, c, hst, hstore, hbd, htest, hb, hback, rfl⟩ := hat
    obtain ⟨hsa, hss, hsbd, hsb⟩ := hs
    have hhead : R outer l (a + 1) :=
      F.loop hg hbd hsbd htest ⟨counter, hsa, rfl⟩ rfl hb hsb hd hback ⟨counter, hsa, rfl⟩ rfl h
    exact Expr.flow F hg hst hss (F.one hg hstore ⟨counter, hsa, rfl⟩ rfl hhead)
  | .read names line => exact ReadsAt.flow F hg hat hs h
  | .write values line => exact Expr.flow_writes F hg hat hs h
  | .call name line =>
    obtain ⟨hc, rfl⟩ := hat
    exact F.one hg hc ⟨name, hs, rfl⟩ rfl h
  | .group body line => exact Stmt.flowAll body hat hs hd hg h
  | .procedure name body line =>
    obtain ⟨b, hj, -⟩ := hat
    exact F.one hg hj trivial rfl h

theorem Stmt.flowAll {l : Layer} {i k : Nat} (ss : List Stmt) (hat : Stmt.AtAll J ps outer l ss i k) (hs : Stmt.ScopedAll outer l ss)
    (hd : ∀ d ∈ Stmt.declaredAll outer l ss, D d) (hg : Ground J ps D outer l) (h : R outer l k) : R outer l i := by
  match ss with
  | [] => exact (show i = k from hat) ▸ h
  | s :: ss =>
    obtain ⟨j, hfirst, hrest⟩ := hat
    obtain ⟨hds, hdss⟩ := List.forall_mem_append.mp hd
    have hj := Stmt.flowAll ss hrest hs.2 hdss (hg.after hfirst hs.1 hds) ((F.after s).mpr h)
    exact Stmt.flow s hfirst hs.1 hds hg ((F.after s).mp hj)

/-- Both where the branch before ends and where its guard leads past it. -/
theorem ElseIf.flowAll {l : Layer} {exit b next : Nat}
    {last : Layer → Nat → Nat → Prop} (es : List ElseIf)
    (hat : ElseIf.AtAll J ps outer l exit es last b next) (hs : ElseIf.ScopedAll outer l es)
    (hd : ∀ d ∈ ElseIf.declaredAll outer l es, D d) (hg : Ground J ps D outer l) (h : R outer l exit)
    (hlast : ∀ {b next}, Ground J ps D outer (ElseIf.afterAll l es) → last (ElseIf.afterAll l es) b next →
      R outer (ElseIf.afterAll l es) b ∧ R outer (ElseIf.afterAll l es) next) : R outer l b ∧ R outer l next := by
  match es with
  | [] => exact hlast hg hat
  | ⟨cond, body, line⟩ :: others =>
    obtain ⟨hj, rfl, a, c, next', hc, ht, hb, ho⟩ := hat
    obtain ⟨hdb, hdo⟩ := List.forall_mem_append.mp hd
    have hg' := hg.afterAll hb hs.2.1 hdb
    obtain ⟨hc', hnext'⟩ := ElseIf.flowAll others ho hs.2.2 hdo hg' ((F.afterAll body).mpr h) hlast
    rw [F.afterAll body] at hc' hnext'
    have ha : R outer l a := F.two hg ht trivial rfl hnext' (Stmt.flowAll body hb hs.2.1 hdb hg hc')
    exact ⟨F.one hg hj trivial rfl h, Expr.flow F hg hc hs.1 ha⟩

end

theorem Block.flow {b : Block} (hat : b.At J ps outer l i k) (hs : b.Scoped outer l)
    (hd : ∀ d ∈ b.declared outer l, D d) (hg : Ground J ps D outer l) (h : R outer (b.after outer l) k) :
    R outer l i := by
  match b with
  | ⟨decls, some s, line⟩ =>
    obtain ⟨j, hdecls, hat⟩ := hat
    obtain ⟨hdd, hds⟩ := List.forall_mem_append.mp hd
    exact Decl.flowAll F hg hdecls hdd (Stmt.flow F s hat hs.2 hds (hg.decls hdd) ((F.after s).mp h))
  | ⟨decls, none, line⟩ =>
    obtain ⟨j, hdecls, rfl⟩ := hat
    obtain ⟨hdd, -⟩ := List.forall_mem_append.mp hd
    exact Decl.flowAll F hg hdecls hdd h

end

theorem Replay.Ground.block {J : JumpCode} {ps : List (List String)} {D : Declared → Prop} {outer : List Layer}
    {l : Layer} {i k : Nat} {b : Block} (hg : Ground J ps D outer l) (hat : b.At J ps outer l i k)
    (hs : b.Scoped outer l) (hd : ∀ d ∈ b.declared outer l, D d) : Ground J ps D outer (b.after outer l) := by
  match b with
  | ⟨decls, some s, line⟩ =>
    obtain ⟨j, hdecls, hat⟩ := hat
    obtain ⟨hdd, hds⟩ := List.forall_mem_append.mp hd
    exact (hg.decls hdd).after hat hs.2 hds
  | ⟨decls, none, line⟩ => exact hg.decls (List.forall_mem_append.mp hd).1

theorem Block.flowAll {J : JumpCode} {ps : List (List String)} {D : Declared → Prop}
    {R : List Layer → Layer → Nat → Prop} {outer : List Layer} {l : Layer} {i k : Nat} (F : Flow J ps D R)
    {bs : List Block} (hat : Block.AtAll J ps outer l bs i k) (hs : Block.ScopedAll outer l bs)
    (hd : ∀ d ∈ Block.declaredAll outer l bs, D d) (hg : Ground J ps D outer l)
    (h : R outer (Block.afterAll outer l bs) k) : R outer l i := by
  induction bs generalizing l i with
  | nil => exact (show i = k from hat) ▸ h
  | cons b bs ih =>
    obtain ⟨j, hb, hbs⟩ := hat
    obtain ⟨hdb, hdbs⟩ := List.forall_mem_append.mp hd
    exact Block.flow F hb hs.1 hdb hg (ih hbs hs.2 hdbs (hg.block hb hs.1 hdb) h)

end PLZero
