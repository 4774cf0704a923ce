import PLZero.Proofs.Reflects

/-! A stack module does what the program means, in step with it: with the same fuel both come to a result,
both come to an operation without result, or both are cut off. -/

namespace PLZero

namespace StackModule

/-- Code ends as the meaning does, and where that is a result `Q` holds. -/
def Mirrors {α : Type} (o : Meaning.Result α) (r : Outcome) (Q : α → State → Prop) : Prop :=
  match o with
  | .done a => ∃ t, r = .next t ∧ Q a t
  | .fault (.division _) => r = .trap
  | .fault (.undeclared _) => False
  | .exhausted => r = .exhausted

namespace Mirrors

variable {α β : Type} {o : Meaning.Result α} {r : Outcome} {Q Q' : α → State → Prop} {R : β → State → Prop}

theorem done {a : α} {t : State} (h : Q a t) : Mirrors (.done a) (.next t) Q := ⟨t, rfl, h⟩

theorem bind {k : α → Meaning.Result β} {k' : State → Outcome} (h : Mirrors o r Q)
    (hk : ∀ a t, Q a t → Mirrors (k a) (k' t) R) : Mirrors (o >>= k) (r.andThen k') R := by
  match o, h with
  | .done a, ⟨t, hr, hq⟩ =>
    rw [hr]
    exact hk a t hq
  | .fault (.division line), hr =>
    rw [show r = .trap from hr]
    rfl
  | .exhausted, hr =>
    rw [show r = .exhausted from hr]
    rfl

theorem andThen {k' : State → Outcome} (h : Mirrors o r Q) (hk : ∀ a t, Q a t → Mirrors (.done a) (k' t) Q') :
    Mirrors o (r.andThen k') Q' := by
  have hpure : (o >>= fun a => .done a) = o := by cases o <;> rfl
  exact hpure ▸ h.bind hk

theorem imp (h : Mirrors o r Q) (hq : ∀ a t, Q a t → Q' a t) : Mirrors o r Q' := by
  match o, h with
  | .done a, ⟨t, hr, h⟩ => exact ⟨t, hr, hq a t h⟩
  | .fault (.division line), hr => exact hr
  | .exhausted, hr => exact hr

theorem returning {s : State} (h : Mirrors o r Q)
    (hq : ∀ a t, Q a t → Q' a { t with locals := s.locals }) : Mirrors o (r.returning s) Q' := by
  match o, h with
  | .done a, ⟨t, hr, h⟩ => exact ⟨_, hr ▸ rfl, hq a t h⟩
  | .fault (.division line), hr => rw [show r = .trap from hr]; rfl
  | .exhausted, hr => rw [show r = .exhausted from hr]; rfl

/-- Code traps exactly where the meaning has an operation without result. -/
theorem trap_iff (h : Mirrors o r Q) : r = .trap ↔ ∃ line, o = .fault (.division line) := by
  match o, h with
  | .done a, ⟨t, hr, _⟩ => simp [hr]
  | .fault (.division line), hr => simp [show r = .trap from hr]
  | .exhausted, hr => simp [show r = .exhausted from hr]

end Mirrors

/-- The procedure is a function of the module, and all that it declares is in the catalogue. -/
def Standing (F : List Function) (D : List Declared) (home : Layer) (outer : List Layer) (name : String)
    (body : Block) : Prop :=
  body.Scoped (home :: outer) (home.inside name) ∧ (home.path, .procedure name body) ∈ D ∧
    body.declared (home :: outer) (home.inside name) ⊆ D ∧
    ∃ codes, body.Emitted F (home :: outer) (home.inside name) codes ∧
      ⟨qualify home.path name, Decl.savedAll true (home.path ++ [name]) body.decls, codes⟩ ∈ F

end StackModule

open StackModule

variable {outer : List Layer} {F : List Function} {D : List Declared}

mutual

theorem Stmt.standing {F : List Function} {D : List Declared} {l : Layer} {codes : List Code}
    (s : Stmt) (he : s.Emitted F outer l codes) (hs : s.Scoped outer l) (hd : s.declared outer l ⊆ D)
    (h : EachProcedure (Standing F D) (l :: outer)) : EachProcedure (Standing F D) (s.after l :: outer) := by
  match s with
  | .assign .. | .read .. | .write .. | .call .. => exact h
  | .ifElse cond body elseIfs (some other) line =>
    obtain ⟨b, o, hb, ho, -⟩ := he
    obtain ⟨-, hsb, hse, hso⟩ := hs
    obtain ⟨hd, hdo⟩ := List.append_subset.mp hd
    obtain ⟨hdb, hde⟩ := List.append_subset.mp hd
    obtain ⟨h, o', b', hb', -⟩ := ElseIf.standingAll elseIfs ho hse hde (Stmt.standingAll body hb hsb hdb h)
    exact Stmt.standingAll other hb' hso hdo h
  | .ifElse cond body elseIfs none line =>
    obtain ⟨b, o, hb, ho, -⟩ := he
    obtain ⟨-, hsb, hse, -⟩ := hs
    obtain ⟨hd, -⟩ := List.append_subset.mp hd
    obtain ⟨hdb, hde⟩ := List.append_subset.mp hd
    exact (ElseIf.standingAll elseIfs ho hse hde (Stmt.standingAll body hb hsb hdb h)).1
  | .whileDo cond body line =>
    obtain ⟨n, b, hb, -⟩ := he
    exact Stmt.standingAll body hb hs.2 hd h
  | .forTo counter start bound body line =>
    obtain ⟨n, b, hb, -⟩ := he
    exact Stmt.standingAll body hb hs.2.2.2 hd h
  | .group body line => exact Stmt.standingAll body he hs hd h
  | .procedure name body line =>
    obtain ⟨-, b, hb, hmem⟩ := he
    obtain ⟨hd, hdb⟩ := List.cons_subset.mp hd
    exact h.add_procedure ⟨hs.2.2, hd, hdb, b, hb, hmem⟩

theorem Stmt.standingAll {F : List Function} {D : List Declared} {l : Layer}
    {codes : List Code} (ss : List Stmt) (he : Stmt.EmittedAll F outer l ss codes) (hs : Stmt.ScopedAll outer l ss)
    (hd : Stmt.declaredAll outer l ss ⊆ D) (h : EachProcedure (Standing F D) (l :: outer)) :
    EachProcedure (Standing F D) (Stmt.afterAll l ss :: outer) := by
  match ss with
  | [] => exact h
  | s :: ss =>
    obtain ⟨a, b, ha, hb, -⟩ := he
    obtain ⟨hda, hdb⟩ := List.append_subset.mp hd
    exact Stmt.standingAll ss hb hs.2 hdb (Stmt.standing s ha hs.1 hda h)

/-- What comes behind the guarded branches stands in the `else` of the last of them. -/
theorem ElseIf.standingAll {F : List Function} {D : List Declared} {l : Layer}
    {last : Layer → Option (List Code) → Prop} {o : Option (List Code)} (es : List ElseIf)
    (he : ElseIf.EmittedAll F outer l es last o) (hs : ElseIf.ScopedAll outer l es)
    (hd : ElseIf.declaredAll outer l es ⊆ D) (h : EachProcedure (Standing F D) (l :: outer)) :
    EachProcedure (Standing F D) (ElseIf.afterAll l es :: outer) ∧ ∃ o, last (ElseIf.afterAll l es) o := by
  match es with
  | [] => exact ⟨h, o, he⟩
  | ⟨cond, body, line⟩ :: others =>
    obtain ⟨b, o', hb, ho, -⟩ := he
    obtain ⟨hdb, hdo⟩ := List.append_subset.mp hd
    exact ElseIf.standingAll others ho hs.2.2 hdo (Stmt.standingAll body hb hs.2.1 hdb h)

end

namespace StackModule

/-- Every procedure in sight can be called, and the scopes `ks` are those in sight. -/
structure Setting (F : List Function) (D : List Declared) (outer : List Layer) (l : Layer) (ks : List Layer) :
    Prop where
  levels : Levels D ks
  covers : Covers (l :: outer) ks
  procedures : EachProcedure (Standing F D) (l :: outer)

theorem Covers.procedure {l : Layer} {outer ks : List Layer} (h : Covers (l :: outer) ks) (name : String)
    (body : Block) : Covers (l.add (.procedure name body) :: outer) ks := by
  match h with
  | .cons hl ho =>
    refine .cons ⟨hl.1, fun e he hb => hl.2 e ((List.mem_cons.mp he).resolve_left fun heq => ?_) hb⟩ ho
    rw [heq] at hb
    cases hb

variable {layers ks : List Layer} {l : Layer} {codes : List Code}

namespace Setting

theorem after {s : Stmt} (h : Setting F D outer l ks) (he : s.Emitted F outer l codes) (hs : s.Scoped outer l)
    (hd : s.declared outer l ⊆ D) : Setting F D outer (s.after l) ks :=
  ⟨h.levels, Stmt.after_induct (P := fun l => Covers (l :: outer) ks) (fun _ _ _ h => h.procedure _ _) h.covers s,
    Stmt.standing s he hs hd h.procedures⟩

theorem afterAll {ss : List Stmt} (h : Setting F D outer l ks) (he : Stmt.EmittedAll F outer l ss codes)
    (hs : Stmt.ScopedAll outer l ss) (hd : Stmt.declaredAll outer l ss ⊆ D) :
    Setting F D outer (Stmt.afterAll l ss) ks :=
  ⟨h.levels,
    Stmt.afterAll_induct (P := fun l => Covers (l :: outer) ks) (fun _ _ _ h => h.procedure _ _) h.covers ss,
    Stmt.standingAll ss he hs hd h.procedures⟩

theorem afterElseIfs {es : List ElseIf} {last : Layer → Option (List Code) → Prop} {o : Option (List Code)}
    (h : Setting F D outer l ks) (he : ElseIf.EmittedAll F outer l es last o) (hs : ElseIf.ScopedAll outer l es)
    (hd : ElseIf.declaredAll outer l es ⊆ D) : Setting F D outer (ElseIf.afterAll l es) ks :=
  ⟨h.levels,
    ElseIf.afterAll_induct (P := fun l => Covers (l :: outer) ks) (fun _ _ _ h => h.procedure _ _) h.covers es,
    (ElseIf.standingAll es he hs hd h.procedures).1⟩

end Setting

end StackModule

section

variable {layers ks : List Layer} {l : Layer} {t0 t : State} {σ : Meaning.State} {readValue : Int32}
  {turns : Nat} {c : Calls}

/-- An expression has its value in the module, or no value in both. -/
theorem Expr.eval_folded (hl : Levels D ks) (hcov : Covers layers ks) (h : Reflects D ks t0 σ t)
    {e : Expr} (hs : e.Scoped layers) (calls : String → Sexp.Ending) :
    (∃ v, e.eval operate layers σ = .done v ∧
        (exprSexp (e.folded layers)).eval (t.env calls) = .value v) ∨
      ∃ line, e.eval operate layers σ = .fault (.division line) ∧
        (exprSexp (e.folded layers)).eval (t.env calls) = .trap := by
  induction e with
  | binary op left right line ihl ihr =>
    simp only [Expr.eval, Expr.folded, exprSexp, eval_binary]
    rcases ihl hs.1 with ⟨a, ha, ha'⟩ | ⟨ln, ha, ha'⟩
    · rcases ihr hs.2 with ⟨b, hb, hb'⟩ | ⟨ln, hb, hb'⟩
      · rw [ha, ha', hb, hb']
        cases hop : operate op a b with
        | some v =>
          exact .inl ⟨v, by simp only [bind, Meaning.Result.bind, hop]; rfl,
            by simp [Sexp.Ending.andThen, hop]⟩
        | none =>
          exact .inr ⟨line, by simp only [bind, Meaning.Result.bind, hop],
            by simp [Sexp.Ending.andThen, hop]⟩
      · exact .inr ⟨ln, by rw [ha, hb]; rfl, by rw [ha', hb']; rfl⟩
    · exact .inr ⟨ln, by rw [ha]; rfl, by rw [ha']; rfl⟩
  | literal value line => exact .inl ⟨value, rfl, eval_const _ value⟩
  | ident name line =>
    obtain ⟨f, hf, hb⟩ := hs
    exact .inl ⟨_, σ.read_of_lookup hf hb, congrArg Sexp.Ending.value (h.read hl hcov hf hb)⟩

/-- What is done with the value of an expression, and what comes behind that. -/
theorem Expr.mirrors {α : Type} {Q : α → State → Prop} {e : Expr} {k : Int32 → Meaning.Result α}
    {k' : Int32 → StackModule.Outcome} {rest : State → StackModule.Outcome}
    {calls : String → Sexp.Ending} (hl : Levels D ks) (hcov : Covers layers ks)
    (h : Reflects D ks t0 σ t) (hs : e.Scoped layers)
    (hk : ∀ v, Mirrors (k v) ((k' v).andThen rest) Q) :
    Mirrors (e.eval operate layers σ >>= k)
      ((withValue ((exprSexp (e.folded layers)).eval (t.env calls)) k').andThen rest) Q := by
  rcases Expr.eval_folded hl hcov h hs calls with ⟨v, hv, hv'⟩ | ⟨line, hv, hv'⟩
  · rw [hv, hv']
    exact hk v
  · rw [hv, hv']
    rfl

namespace StackModule

variable {name : String} {b : List Code} {body : Meaning.State → Meaning.Result Meaning.State} {n : Nat}

theorem Reflects.mirrors_assign (hD : Catalogue D) {v : Int32} (hl : Levels D ks)
    (hcov : Covers layers ks) (h : Reflects D ks t0 σ t) (ha : Assignable layers name) :
    Mirrors (σ.assign layers name v) (.next (t.set (idOf layers name) v)) (Reflects D ks t0) := by
  obtain ⟨f, hf, he⟩ := ha
  rw [σ.assign_of_lookup hf he]
  exact .done (h.assign hD hl hcov hf he v)

theorem Reflects.write (h : Reflects D ks t0 σ t) (v : Int32) : Reflects D ks t0 (σ.write v) (t.write v) :=
  ⟨h.length, fun hk hfr => ⟨(h.held hk hfr).vars, (h.held hk hfr).consts, (h.held hk hfr).fresh⟩,
    congrArg (·.push v) h.output, h.constants, h.kept, h.locals⟩

theorem Reflects.mirrors_readAll (hD : Catalogue D) {names : List String} (hl : Levels D ks)
    (hcov : Covers layers ks) (hread : c.value Hook.read.id = .value readValue)
    (h : Reflects D ks t0 σ t) (hs : ∀ name ∈ names, Assignable layers name) :
    Mirrors (Meaning.State.assignAll layers readValue names σ)
      (Code.execAll c turns (names.map fun name => .read (idOf layers name)) t)
      (Reflects D ks t0) := by
  induction names generalizing σ t with
  | nil => exact .done h
  | cons name names ih =>
    obtain ⟨hname, hnames⟩ := List.forall_mem_cons.mp hs
    rw [List.map_cons, Code.execAll_cons, Code.exec_read, hread]
    exact (h.mirrors_assign hD hl hcov hname).bind fun _ _ h' => ih h' hnames

theorem Reflects.mirrors_writeAll {es : List Expr} (hl : Levels D ks) (hcov : Covers layers ks)
    (hwrite : ∀ v t, c.run Hook.write.id [v] t = .next (t.write v)) (h : Reflects D ks t0 σ t)
    (hs : ∀ e ∈ es, e.Scoped layers) :
    Mirrors (Expr.writeAll operate layers es σ)
      (Code.execAll c turns (es.map fun e => .write (e.folded layers)) t) (Reflects D ks t0) := by
  induction es generalizing σ t with
  | nil => exact .done h
  | cons e es ih =>
    obtain ⟨he, hes⟩ := List.forall_mem_cons.mp hs
    rw [List.map_cons, Code.execAll_cons, Code.exec_write, Expr.writeAll]
    refine Expr.mirrors hl hcov h he fun v => ?_
    rw [hwrite]
    exact ih (h.write v) hes

theorem Mirrors.branch {cond : Expr} {o : Option (List Code)}
    {body others : Meaning.Result Meaning.State} {Q : Meaning.State → State → Prop} (hl : Levels D ks)
    (hcov : Covers layers ks) (h : Reflects D ks t0 σ t) (hs : cond.Scoped layers)
    (hbody : Mirrors body (Code.execAll c turns b t) Q)
    (hothers : Mirrors others (Code.execElse c turns o t) Q) :
    Mirrors (do if (← cond.eval operate layers σ) ≠ 0 then body else others)
      (Code.execAll c turns [.ifElse (cond.folded layers) b o] t) Q := by
  rw [Code.execAll_cons, Code.exec_ifElse]
  refine Expr.mirrors hl hcov h hs fun v => ?_
  rw [show Code.execAll c turns [] = .next from rfl, Outcome.andThen_next]
  by_cases hv : v ≠ 0
  · rw [if_pos hv, if_pos hv]
    exact hbody
  · rw [if_neg hv, if_neg hv]
    exact hothers

theorem behindLabel_ne_againLabel (n : Nat) : Writer.behindLabel n ≠ Writer.againLabel n := by
  intro h
  have hcs := congrArg String.toList h
  simp [Writer.behindLabel, Writer.againLabel] at hcs

theorem exec_loopBlock (n : Nat) (test : Code) (body : List Code) (t : State) :
    (loopBlock n (test :: body)).exec c turns t =
      (goAround (Writer.againLabel n) (fun t => (test.exec c turns t).andThen fun t =>
        (Code.execAll c turns body t).andThen fun t => .branch (Writer.againLabel n) t) turns
          t).leaving (Writer.behindLabel n) := by
  have hround : Code.execAll c turns (test :: body ++ [.branch (.again n)]) =
      fun t => (test.exec c turns t).andThen fun t =>
        (Code.execAll c turns body t).andThen fun t => .branch (Writer.againLabel n) t := by
    funext t
    rw [List.cons_append, Code.execAll_cons]
    congr 1
    funext t
    rw [Code.execAll_append]
    congr 1
  rw [loopBlock, Code.exec_block, Code.execAll_singleton, Code.exec_loop, hround]
  rfl

theorem Mirrors.loop {test : Meaning.State → Meaning.Result Bool}
    {check run : State → Outcome}
    {I : Meaning.State → State → Prop}
    (htest : ∀ {σ t}, I σ t →
      (∃ c : Bool, test σ = .done c ∧ check t = if c then .next t else .branch (Writer.behindLabel n) t) ∨
        ∃ line, test σ = .fault (.division line) ∧ check t = .trap)
    (hbody : ∀ {σ t}, I σ t → Mirrors (body σ) (run t) I) (turns : Nat) (h : I σ t) :
    Mirrors (Meaning.loop test body turns σ)
      ((goAround (Writer.againLabel n) (fun t => (check t).andThen fun t => (run t).andThen
        fun t => .branch (Writer.againLabel n) t) turns t).leaving (Writer.behindLabel n)) I := by
  -- a round ends with a branch to the loop itself; the check leaves it for the place behind
  induction turns generalizing σ t with
  | zero => rfl
  | succ turns ih =>
    rw [Meaning.loop, goAround]
    rcases htest h with ⟨c, ht, hc⟩ | ⟨line, ht, hc⟩
    · rw [ht, hc]
      cases c with
      | false =>
        refine ⟨t, ?_, h⟩
        simp [Outcome.andThen, Outcome.leaving, behindLabel_ne_againLabel n]
      | true =>
        simp only [Outcome.andThen, if_true]
        show Mirrors (body σ >>= Meaning.loop test body turns) _ I
        have hrun := hbody h
        revert hrun
        cases body σ with
        | done σ' =>
          rintro ⟨t', hr, h'⟩
          rw [hr]
          simp only [if_true]
          exact ih h'
        | fault f =>
          cases f with
          | division line =>
            intro hr
            rw [show run t = .trap from hr]
            rfl
          | undeclared name => exact False.elim
        | exhausted =>
          intro hr
          rw [show run t = .exhausted from hr]
          rfl
    · rw [ht, hc]
      rfl

theorem Mirrors.whileLoop {cond : Expr}
    (hl : Levels D ks) (hcov : Covers layers ks)
    (hs : cond.Scoped layers) (hbody : ∀ {σ t}, Reflects D ks t0 σ t →
      Mirrors (body σ) (Code.execAll c turns b t) (Reflects D ks t0))
    (h : Reflects D ks t0 σ t) :
    Mirrors (Meaning.loop (fun s => do return (← cond.eval operate layers s) ≠ 0) body turns σ)
      (Code.execAll c turns
        [loopBlock n (.branchIfZero (.behind n) (cond.folded layers) :: b)] t) (Reflects D ks t0) := by
  rw [Code.execAll_singleton, exec_loopBlock]
  refine .loop (fun {σ t} h => ?_) hbody turns h
  rcases Expr.eval_folded hl hcov h hs c.value with ⟨v, hv, hv'⟩ | ⟨line, hv, hv'⟩
  · refine .inl ⟨decide (v ≠ 0), by rw [hv]; rfl, ?_⟩
    rw [Code.exec_branchIfZero, hv']
    by_cases hne : v = 0 <;> simp [withValue, hne, Label.text]
  · exact .inr ⟨line, by rw [hv]; rfl, by rw [Code.exec_branchIfZero, hv']; rfl⟩

/-- A counting loop from its first test on, given what its body does. -/
theorem Mirrors.forLoop (hD : Catalogue D) {counter : String} {bound : Expr}
    (hl : Levels D ks) (hcov : Covers layers ks)
    (hc : Assignable layers counter) (hs : bound.Scoped layers) (hbody : ∀ {σ t}, Reflects D ks t0 σ t →
      Mirrors (body σ) (Code.execAll c turns b t) (Reflects D ks t0))
    (h : Reflects D ks t0 σ t) :
    Mirrors (Meaning.loop
        (fun s => do
          let limit ← bound.eval operate layers s
          return (← s.read layers counter) < limit)
        (fun s => do
          let s ← body s
          s.assign layers counter ((← s.read layers counter) + 1)) turns σ)
      (Code.execAll c turns [loopBlock n
        (.branchUnlessBelow (.behind n) (idOf layers counter) (bound.folded layers) ::
          b ++ [.increment (idOf layers counter)])] t) (Reflects D ks t0) := by
  obtain ⟨f, hf, he⟩ := id hc
  have hread {σ t} (h : Reflects D ks t0 σ t) :
      σ.read layers counter = .done (t.get (idOf layers counter)) := by
    rw [h.read hl hcov hf (he ▸ rfl)]
    exact σ.read_of_lookup hf (he ▸ rfl)
  rw [Code.execAll_singleton, List.cons_append, exec_loopBlock]
  refine .loop (fun {σ t} h => ?_) (fun {σ t} h => ?_) turns h
  · rcases Expr.eval_folded hl hcov h hs c.value with ⟨v, hv, hv'⟩ | ⟨line, hv, hv'⟩
    · refine .inl ⟨decide (t.get (idOf layers counter) < v), by rw [hv, hread h]; rfl, ?_⟩
      rw [Code.exec_branchUnlessBelow, hv']
      by_cases hlt : t.get (idOf layers counter) < v
      · simp [withValue, hlt, Int32.not_le.mpr hlt]
      · simp [withValue, hlt, Int32.not_lt.mp hlt, Label.text]
    · exact .inr ⟨line, by rw [hv]; rfl, by rw [Code.exec_branchUnlessBelow, hv']; rfl⟩
  · rw [Code.execAll_append]
    refine (hbody h).bind fun σ' t' h' => ?_
    rw [hread h', Code.execAll_singleton, Code.exec_increment]
    exact h'.mirrors_assign hD hl hcov hc

/-- What calls may do: read and write, and run the body of a function on the state in which its globals are
cleared. -/
structure CallMirrors (F : List Function) (D : List Declared) (readValue : Int32)
    (call : List Layer → Layer → Block → Meaning.State → Meaning.Result Meaning.State)
    (c : Calls) : Prop where
  read : c.value Hook.read.id = .value readValue
  write : ∀ v t, c.run Hook.write.id [v] t = .next (t.write v)
  function : ∀ {outer : List Layer} {l : Layer} {b : Block} {codes : List Code} {saved : List String}
    {id : String} {ks : List Layer} {σ : Meaning.State} {t : State}, ⟨id, saved, codes⟩ ∈ F →
    b.Emitted F outer l codes → b.Scoped outer l → b.declared outer l ⊆ D →
    Setting F D outer l (l :: ks) → Reflects D (l :: ks) (cleared saved t) σ (cleared saved t) →
    Mirrors (call outer l b σ) (c.run ("$" ++ id) [] t) fun σ' t' =>
      ∃ k t2, k.path = l.path ∧ t' = restored saved t t2 ∧
        Reflects D (k :: ks) (cleared saved t) σ' t2

/-- A function saves the globals of all variables of its procedure. -/
theorem Standing.mem_saved (hD : Catalogue D) {home : Layer} {body : Block}
    (h : Standing F D home outer name body) (id : String) :
    id ∈ Decl.savedAll true (home.path ++ [name]) body.decls ↔
      ∃ n, (home.path ++ [name], .var n) ∈ D ∧ id = qualify (home.path ++ [name]) n := by
  obtain ⟨-, hproc, hdecl, -⟩ := h
  constructor
  · intro hid
    obtain ⟨d, hd, hid⟩ := List.mem_flatMap.mp hid
    match d, hd, hid with
    | .var n init line, hd, hid =>
      refine ⟨n, hdecl ?_, List.mem_singleton.mp hid⟩
      match body with
      | ⟨decls, some s, _⟩ => exact List.mem_append_left _ (Decl.mem_declaredAll hd)
      | ⟨decls, none, _⟩ => exact List.mem_append_left _ (Decl.mem_declaredAll hd)
  · rintro ⟨n, hn, rfl⟩
    exact hD.mem_savedAll hproc hn

/-- The scopes that a procedure sees are shorter than its own. -/
theorem Levels.length_lt {d : Nat} {k : Layer} (h : Levels D ks) (hk : ks[d]? = some k) :
    ∀ k' ∈ ks.drop d, k'.path.length ≤ k.path.length := by
  intro k' hk'
  obtain ⟨j, hj⟩ := List.mem_iff_getElem?.mp hk'
  rw [List.getElem?_drop] at hj
  obtain ⟨hd, rfl⟩ := List.getElem?_eq_some_iff.mp hk
  obtain ⟨hj', rfl⟩ := List.getElem?_eq_some_iff.mp hj
  rcases Nat.eq_zero_or_pos j with rfl | hpos
  · rfl
  · exact (List.pairwise_iff_getElem.mp h.nested d (d + j) hd hj' (by omega)).le

theorem Setting.enter {f : Found} {body : Block} (h : Setting F D outer l ks)
    (hf : lookup (l :: outer) name = some f) (he : f.entry = .procedure name body) :
    Standing F D f.home f.outer name body ∧
      Setting F D (f.home :: f.outer) (f.home.inside name) (f.home.inside name :: ks.drop f.depth) ∧
      f.depth ≤ ks.length ∧ ∀ k ∈ ks.drop f.depth, k.path ≠ f.home.path ++ [name] := by
  obtain ⟨k, hk, hpath, -, hcov⟩ := h.covers.lookup hf
  obtain ⟨hstanding, heach⟩ := h.procedures.lookup hf he
  have hlen : ∀ k' ∈ ks.drop f.depth, k'.path.length < (f.home.path ++ [name]).length := by
    intro k' hk'
    have := h.levels.length_lt hk k' hk'
    rw [hpath] at this
    simpa using Nat.lt_succ_of_le this
  refine ⟨hstanding, ⟨⟨?_, ?_⟩, .cons ⟨rfl, by simp⟩ hcov, heach.inside name⟩, ?_, ?_⟩
  · exact List.pairwise_cons.mpr ⟨hlen, h.levels.nested.drop⟩
  · exact List.forall_mem_cons.mpr ⟨by simp, fun k' hk' => h.levels.known k' (List.mem_of_mem_drop hk')⟩
  · exact (List.getElem?_eq_some_iff.mp hk).1.le
  · exact fun k' hk' heq => absurd (hlen k' hk') (by rw [heq]; exact lt_irrefl _)

theorem Reflects.mirrors_call (hD : Catalogue D)
    {callee : List Layer → Layer → Block → Meaning.State → Meaning.Result Meaning.State}
    (hcall : CallMirrors F D readValue callee c) (line : Nat) (hs : Callable (l :: outer) name)
    (hset : Setting F D outer l ks) (h : Reflects D ks t0 σ t) :
    Mirrors ((Stmt.call name line).exec operate readValue turns callee outer l σ)
      (Code.execAll c turns [.call (idOf (l :: outer) name)] t) (Reflects D ks t0) := by
  obtain ⟨f, body, hf, he⟩ := hs
  obtain ⟨hstanding, hset', hd, hpath⟩ := hset.enter hf he
  have hsaved := hstanding.mem_saved hD
  obtain ⟨hscoped, -, hdecl, codes, hcodes, hmem⟩ := hstanding
  have hexec : (Stmt.call name line).exec operate readValue turns callee outer l σ =
      callee (f.home :: f.outer) (f.home.inside name) body (σ.enter f.depth) >>=
        fun inner => .done (inner.leave σ f.depth) := by
    obtain ⟨depth, entry, home, outer'⟩ := f
    subst he
    simp only [Stmt.exec, hf]
    rfl
  rw [hexec, Code.execAll_cons, Code.exec_call, idOf_of_lookup hf]
  refine (hcall.function hmem hcodes hscoped hdecl hset' (h.enter hsaved hD hpath)).bind ?_
  rintro σ' t' ⟨k, t2, hk, rfl, h'⟩
  exact .done (h.leave hsaved hD hset.levels hd hpath hk h')

end StackModule

end

variable {call : List Layer → Layer → Block → Meaning.State → Meaning.Result Meaning.State}
  {readValue : Int32} {ks : List Layer} {turns : Nat}

section

variable {c : Calls} (hD : Catalogue D) (hcall : CallMirrors F D readValue call c)

include hD hcall

set_option linter.unusedSectionVars false

mutual

theorem Stmt.mirrors {l : Layer} {codes : List Code} {t0 t : State} {σ : Meaning.State} (s : Stmt)
    (he : s.Emitted F outer l codes) (hs : s.Scoped outer l) (hd : s.declared outer l ⊆ D)
    (hset : Setting F D outer l ks) (h : Reflects D ks t0 σ t) :
    Mirrors (s.exec operate readValue turns call outer l σ) (Code.execAll c turns codes t)
      (Reflects D ks t0) := by
  match s with
  | .assign name value line =>
    obtain rfl := he
    rw [Code.execAll_cons, Code.exec_set]
    exact Expr.mirrors hset.levels hset.covers h hs.2 fun v => h.mirrors_assign hD hset.levels hset.covers hs.1
  | .ifElse cond body elseIfs (some other) line =>
    obtain ⟨b, o, hb, ho, rfl⟩ := he
    obtain ⟨hsc, hsb, hse, hso⟩ := hs
    obtain ⟨hd, hdo⟩ := List.append_subset.mp hd
    obtain ⟨hdb, hde⟩ := List.append_subset.mp hd
    have hset1 := hset.afterAll hb hsb hdb
    refine .branch hset.levels hset.covers h hsc (Stmt.mirrorsAll body hb hsb hdb hset h)
      (ElseIf.mirrorsAll elseIfs ho hse hde hset1 ?_ h)
    rintro o ⟨b', hb', rfl⟩
    exact Stmt.mirrorsAll other hb' hso hdo (hset1.afterElseIfs ho hse hde) h
  | .ifElse cond body elseIfs none line =>
    obtain ⟨b, o, hb, ho, rfl⟩ := he
    obtain ⟨hsc, hsb, hse, -⟩ := hs
    obtain ⟨hd, -⟩ := List.append_subset.mp hd
    obtain ⟨hdb, hde⟩ := List.append_subset.mp hd
    refine .branch hset.levels hset.covers h hsc (Stmt.mirrorsAll body hb hsb hdb hset h)
      (ElseIf.mirrorsAll elseIfs ho hse hde (hset.afterAll hb hsb hdb) ?_ h)
    rintro o rfl
    exact .done h
  | .whileDo cond body line =>
    obtain ⟨n, b, hb, rfl⟩ := he
    exact .whileLoop hset.levels hset.covers hs.1 (Stmt.mirrorsAll body hb hs.2 hd hset) h
  | .forTo counter start bound body line =>
    obtain ⟨n, b, hb, rfl⟩ := he
    obtain ⟨hsc, hss, hsl, hsb⟩ := hs
    rw [Code.execAll_cons, Code.exec_set]
    refine Expr.mirrors hset.levels hset.covers h hss fun v => ?_
    refine (h.mirrors_assign hD hset.levels hset.covers hsc).bind fun σ' t' h' => ?_
    exact .forLoop hD hset.levels hset.covers hsc hsl (Stmt.mirrorsAll body hb hsb hd hset) h'
  | .read names line =>
    obtain rfl := he
    exact h.mirrors_readAll hD hset.levels hset.covers hcall.read hs
  | .write values line =>
    obtain rfl := he
    exact h.mirrors_writeAll hset.levels hset.covers hcall.write hs
  | .call name line =>
    obtain rfl := he
    exact h.mirrors_call hD hcall line hs hset
  | .group body line => exact Stmt.mirrorsAll body he hs hd hset h
  | .procedure name body line =>
    obtain ⟨rfl, -⟩ := he
    exact .done h

theorem Stmt.mirrorsAll {l : Layer} {codes : List Code} {t0 t : State} {σ : Meaning.State} (ss : List Stmt)
    (he : Stmt.EmittedAll F outer l ss codes) (hs : Stmt.ScopedAll outer l ss)
    (hd : Stmt.declaredAll outer l ss ⊆ D) (hset : Setting F D outer l ks) (h : Reflects D ks t0 σ t) :
    Mirrors (Stmt.execAll operate readValue turns call outer l ss σ)
      (Code.execAll c turns codes t) (Reflects D ks t0) := by
  match ss with
  | [] =>
    obtain rfl := he
    exact .done h
  | s :: ss =>
    obtain ⟨a, b, ha, hb, rfl⟩ := he
    obtain ⟨hda, hdb⟩ := List.append_subset.mp hd
    rw [Code.execAll_append]
    refine (Stmt.mirrors s ha hs.1 hda hset h).bind fun σ' t' h' => ?_
    exact Stmt.mirrorsAll ss hb hs.2 hdb (hset.after ha hs.1 hda) h'

/-- The branches behind a failed guard; `hlast` is about what is run when all guards fail. -/
theorem ElseIf.mirrorsAll {l : Layer} {t0 t : State} {σ : Meaning.State} {o : Option (List Code)}
    {last : Layer → Option (List Code) → Prop}
    {lastExec : Layer → Meaning.State → Meaning.Result Meaning.State} (es : List ElseIf)
    (he : ElseIf.EmittedAll F outer l es last o) (hs : ElseIf.ScopedAll outer l es)
    (hd : ElseIf.declaredAll outer l es ⊆ D) (hset : Setting F D outer l ks)
    (hlast : ∀ o, last (ElseIf.afterAll l es) o →
      Mirrors (lastExec (ElseIf.afterAll l es) σ) (Code.execElse c turns o t) (Reflects D ks t0))
    (h : Reflects D ks t0 σ t) :
    Mirrors (ElseIf.execAll operate readValue turns call outer l es lastExec σ)
      (Code.execElse c turns o t) (Reflects D ks t0) := by
  match es with
  | [] => exact hlast o he
  | ⟨cond, body, line⟩ :: others =>
    obtain ⟨b, o', hb, ho, rfl⟩ := he
    obtain ⟨hsc, hsb, hso⟩ := hs
    obtain ⟨hdb, hdo⟩ := List.append_subset.mp hd
    rw [ElseIf.execAll]
    exact .branch hset.levels hset.covers h hsc (Stmt.mirrorsAll body hb hsb hdb hset h)
      (ElseIf.mirrorsAll others ho hso hdo (hset.afterAll hb hsb hdb) hlast h)

end

end

section

variable {l k : Layer} {t0 t : State} {σ : Meaning.State} {c : Calls} {codes : List Code}

theorem StackModule.Setting.declare {e : ScopeEntry} (h : Setting F D outer l (k :: ks))
    (he : e.isProcedure = false) (hmem : (l.path, e) ∈ D) : Setting F D outer (l.add e) (k.add e :: ks) := by
  match h.covers with
  | .cons ⟨hpath, hent⟩ ho =>
    refine ⟨h.levels.add (hpath ▸ hmem), .cons ⟨hpath, ?_⟩ ho, h.procedures.add_binding he⟩
    refine List.forall_mem_cons.mpr ⟨fun _ => List.mem_cons_self, fun e he hb => ?_⟩
    exact List.mem_cons_of_mem _ (hent e he hb)

theorem Decl.mirrors (hD : Catalogue D) {d : Decl} (hset : Setting F D outer l (k :: ks))
    (hnew : ¬ k.declares d.name) (hmem : (l.path, d.entry (l :: outer)) ∈ D) (h : Reflects D (k :: ks) t0 σ t) :
    Mirrors (.done (d.exec (l :: outer) σ))
      (Code.execAll c turns (d.sets (l :: outer) l.path) t)
      (Reflects D (k.add (d.entry (l :: outer)) :: ks) t0) := by
  have hpath := hset.covers.path
  match d with
  | .var name none line =>
    obtain ⟨hclear, h'⟩ := h.declare (show ¬ k.declares name from hnew)
    rw [Decl.exec, hclear]
    exact .done h'
  | .var name (some init) line =>
    obtain ⟨hclear, h'⟩ := h.declare (show ¬ k.declares name from hnew)
    have hset' := hset.declare (e := .var name) rfl hmem
    have hf : lookup (l.add (.var name) :: outer) name = some ⟨0, .var name, l.add (.var name), outer⟩ := by
      rw [lookup_add]
      exact if_pos rfl
    have h'' := h'.assign hD hset'.levels hset'.covers hf rfl (init.valueIn (l :: outer))
    rw [idOf_of_lookup hf] at h''
    rw [Decl.exec, hclear, Decl.sets, Code.execAll_singleton, Code.exec_set, exprSexp, eval_const]
    exact .done h''
  | .const name init line => exact .done (h.declareConst hD hset.levels hnew (hpath ▸ hmem))

/-- Declarations add the same entries to the scope and to the one that covers it. -/
theorem Decl.mirrorsAll (hD : Catalogue D) {ds : List Decl} (hs : Decl.ScopedAll outer l ds)
    (hd : Decl.declaredAll outer l ds ⊆ D) (hset : Setting F D outer l (k :: ks))
    (hhead : ∀ n, k.declares n → l.declares n) (h : Reflects D (k :: ks) t0 σ t) :
    ∃ k', (∀ n, k'.declares n → (Decl.afterAll outer l ds).declares n) ∧
      Setting F D outer (Decl.afterAll outer l ds) (k' :: ks) ∧
      Mirrors (.done (Decl.execAll outer l ds σ))
        (Code.execAll c turns (Decl.setsAll outer l ds) t) (Reflects D (k' :: ks) t0) := by
  induction ds generalizing l k σ t with
  | nil => exact ⟨k, hhead, hset, .done h⟩
  | cons d ds ih =>
    obtain ⟨-, hnew, -, hds⟩ := hs
    obtain ⟨hmem, hd⟩ := List.cons_subset.mp hd
    obtain ⟨t1, ht1, h1⟩ : Mirrors _ (Code.execAll c turns _ t) _ :=
      Decl.mirrors hD hset (fun hk => hnew (hhead _ hk)) hmem h
    have hset1 := hset.declare (by cases d <;> rfl) hmem
    have hhead1 : ∀ n, (k.add (d.entry (l :: outer))).declares n → (l.add (d.entry (l :: outer))).declares n :=
      fun n hn => Layer.declares_add.mpr ((Layer.declares_add.mp hn).imp_right (hhead n))
    obtain ⟨k', hk', hset', h'⟩ := ih hds hd hset1 hhead1 h1
    refine ⟨k', hk', hset', ?_⟩
    rw [Decl.setsAll, Code.execAll_append, ht1]
    exact h'

theorem Block.mirrors (hD : Catalogue D) (hcall : CallMirrors F D readValue call c) {b : Block}
    (he : b.Emitted F outer l codes) (hs : b.Scoped outer l) (hd : b.declared outer l ⊆ D)
    (hset : Setting F D outer l (k :: ks)) (hhead : ∀ n, k.declares n → l.declares n)
    (h : Reflects D (k :: ks) t0 σ t) :
    Mirrors (b.exec operate readValue turns call outer l σ) (Code.execAll c turns codes t)
      fun σ' t' => ∃ k', (∀ n, k'.declares n → (b.after outer l).declares n) ∧
        Setting F D outer (b.after outer l) (k' :: ks) ∧ Reflects D (k' :: ks) t0 σ' t' := by
  match b with
  | ⟨decls, some s, line⟩ =>
    obtain ⟨c, rfl, hc⟩ := he
    obtain ⟨hdd, hds⟩ := List.append_subset.mp hd
    obtain ⟨k', hk', hset', t1, ht1, h1⟩ := Decl.mirrorsAll hD hs.1 hdd hset hhead h
    rw [Code.execAll_append, ht1]
    refine (Stmt.mirrors hD hcall s hc hs.2 hds hset' h1).imp fun σ' t' h' => ?_
    exact ⟨k', fun n hn => (Stmt.adds s hs.2).keeps n (hk' n hn), hset'.after hc hs.2 hds, h'⟩
  | ⟨decls, none, line⟩ =>
    obtain ⟨c, rfl, rfl⟩ := he
    obtain ⟨hdd, -⟩ := List.append_subset.mp hd
    obtain ⟨k', hk', hset', t1, ht1, h1⟩ := Decl.mirrorsAll hD hs.1 hdd hset hhead h
    rw [Code.execAll_append, ht1]
    exact .done ⟨k', hk', hset', h1⟩

theorem Block.mirrorsAll (hD : Catalogue D) (hcall : CallMirrors F D readValue call c) {bs : List Block}
    (he : Block.EmittedAll F outer l bs codes) (hs : Block.ScopedAll outer l bs)
    (hd : Block.declaredAll outer l bs ⊆ D) (hset : Setting F D outer l (k :: ks))
    (hhead : ∀ n, k.declares n → l.declares n) (h : Reflects D (k :: ks) t0 σ t) :
    Mirrors (Block.execAll operate readValue turns call outer l bs σ)
      (Code.execAll c turns codes t)
      fun σ' t' => ∃ k', k'.path = l.path ∧ Reflects D (k' :: ks) t0 σ' t' := by
  induction bs generalizing l k σ t codes with
  | nil =>
    obtain rfl := he
    exact .done ⟨k, hset.covers.path, h⟩
  | cons b bs ih =>
    obtain ⟨c, c', hc, hc', rfl⟩ := he
    obtain ⟨hdb, hdbs⟩ := List.append_subset.mp hd
    rw [Code.execAll_append]
    refine (Block.mirrors hD hcall hc hs.1 hdb hset hhead h).bind ?_
    rintro σ' t' ⟨k', hk', hset', h'⟩
    rw [← Block.after_path outer l b]
    exact ih hc' hs.2 hdbs hset' hk' h'

namespace StackModule

/-- Calls by name do what calls of the procedure do, with the same number of open calls. -/
theorem callFunction_mirrors {callees : List (String × Callee)} (hD : Catalogue D)
    (hF : Provides callees F) (n : Nat) :
    CallMirrors F D readValue (callWithin operate readValue turns n)
      (calls callees .unlimited readValue ()
        (callFunction callees .unlimited readValue turns n)) := by
  induction n with
  | zero =>
    refine ⟨hF.value_read, hF.run_write, fun hf _ _ _ _ _ => ?_⟩
    rw [hF.run_function hf]
    rfl
  | succ n ih =>
    refine ⟨hF.value_read, hF.run_write, ?_⟩
    intro outer l b codes saved id ks σ t hf he hs hd hset h
    rw [hF.run_function hf, callWithin]
    change Mirrors _ (callFunction callees .unlimited readValue turns (n + 1) () _ _ _) _
    rw [callFunction_succ]
    refine ((Block.mirrors hD ih he hs hd hset (fun _ hn => hn) h).andThen
      fun σ' t' h' => ?_).returning fun _ _ h => h
    obtain ⟨k', -, hset', h'⟩ := h'
    exact .done ⟨k', t', hset'.covers.path.trans (Block.after_path outer l b), rfl, h'⟩

end StackModule

end

theorem Declared.id_of_cell? {d : Declared} {id : String} {v : Int32} (h : d.cell? = some (id, v)) :
    id = dotted d.full := by
  unfold Declared.cell? at h
  split at h <;> cases h <;> rfl

section

variable {p : Program} {M : StackModule} (h : p.Scoped)
  (hglobals : M.globals = p.declared.filterMap Declared.global?)

include h hglobals

theorem StackModule.initialState_get {d : Declared} {id : String} {v : Int32} (hd : d ∈ p.declared)
    (hc : d.cell? = some (id, v)) : (initialState M.fields).get id = v := by
  have hcells : M.fields.filterMap cell? =
      (p.declared.filterMap Declared.cell?).map fun x => ("$" ++ x.1, x.2) := by
    rw [cells_fields, hglobals, funext Declared.cell?_eq, List.map_filterMap, List.map_filterMap]
    simp only [Option.map_map]
    rfl
  have hdistinct : ((p.declared.filterMap Declared.cell?).map fun x => ("$" ++ x.1, x.2)).Pairwise
      fun a b => ¬ compare a.1 b.1 = .eq := by
    have hne : p.declared.Pairwise (· ≠ ·) := (p.declared_nodup h).of_map
    refine List.pairwise_map.mpr (List.pairwise_filterMap.mpr
      (hne.imp_of_mem fun {d d'} hd hd' hne a ha b hb heq => hne ?_))
    refine (p.catalogue h).distinct d hd d' hd' ?_
    rw [← Declared.id_of_cell? ha, ← Declared.id_of_cell? hb]
    exact (String.append_right_inj _).mp (Std.LawfulEqCmp.eq_of_compare heq)
  have hmem : ("$" ++ id, v) ∈ (p.declared.filterMap Declared.cell?).map fun x => ("$" ++ x.1, x.2) :=
    List.mem_map.mpr ⟨_, List.mem_filterMap.mpr ⟨d, hd, hc⟩, rfl⟩
  rw [initialState, State.get, hcells]
  exact Std.ExtTreeMap.getD_ofList_of_mem Std.ReflCmp.compare_self hdistinct hmem

/-- The run starts in a state that reflects the first one of the meaning. -/
theorem StackModule.initialState_reflects :
    Reflects p.declared [.initial] ((initialState M.fields).enter []) .initial
      ((initialState M.fields).enter []) where
  length := rfl
  held {i k fr} hk hfr := by
    match i, hk, hfr with
    | 0, hk, hfr =>
      cases hk
      cases hfr
      exact ⟨fun n hn => initialState_get h hglobals hn rfl, fun _ _ => nofun, fun _ _ => rfl⟩
  output := rfl
  constants hc := initialState_get h hglobals hc rfl
  kept _ _ := rfl
  locals := rfl

/-- A run of the module of a well-scoped program does what the program means. -/
theorem Program.mirrors (hprovides : Provides (M.fields.filterMap callee?) M.functions)
    (hentry : Block.EmittedAll M.functions [] .initial p.blocks M.entry) (readValue : Int32)
    (fuel : Nat) :
    Mirrors (p.exec operate readValue fuel) (StackModule.run M.fields .unlimited readValue fuel fuel)
      fun σ t => t.output = σ.output ∧
        ∀ n, ([], .var n) ∈ p.declared → t.get n = σ.globals[n]?.getD 0 := by
  have hD := p.catalogue h
  have hset : Setting M.functions p.declared [] .initial [.initial] :=
    ⟨⟨List.pairwise_singleton _ _, by simp [Layer.initial]⟩,
      .cons ⟨rfl, by simp [Layer.initial]⟩ .nil, .initial⟩
  rw [run_fields]
  refine (Block.mirrorsAll hD (callFunction_mirrors hD hprovides fuel) hentry h (List.Subset.refl _)
    hset (fun _ hn => hn) (initialState_reflects h hglobals)).returning ?_
  rintro σ t ⟨k, hpath, hr⟩
  obtain ⟨fr, hfr⟩ := List.length_eq_one_iff.mp hr.length
  refine ⟨hr.output, fun n hn => ?_⟩
  have hvar := (hr.held (i := 0) rfl (by rw [hfr]; rfl)).vars n (hpath ▸ hn)
  rw [hpath] at hvar
  rw [Meaning.State.globals, hfr]
  exact hvar

end

end PLZero
