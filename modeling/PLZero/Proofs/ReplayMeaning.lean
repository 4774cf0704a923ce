import PLZero.Proofs.Tracks

/-! The replay machine does what the program means. Code that stands in its place is run from one end to the
other, and the machine keeps track of the state that the meaning goes through. -/

namespace PLZero

open Meaning

namespace Replay

def owners (ps : List (List String)) (layers : List Layer) : List (Option Nat) :=
  layers.map fun l => owner ps l.path

/-- The scopes are those of procedures one inside the other, and the procedures have numbers. -/
def Nested (ps : List (List String)) : List Layer → Prop
  | [] => False
  | [l] => l.path = []
  | l :: l' :: outer => (∃ name, l.path = l'.path ++ [name]) ∧ l.path ∈ ps ∧ Nested ps (l' :: outer)

variable {ps : List (List String)} {l l' : Layer} {outer layers : List Layer}

namespace Nested

theorem congr (h : Nested ps (l :: outer)) (hp : l'.path = l.path) : Nested ps (l' :: outer) := by
  cases outer with
  | nil => exact hp.trans h
  | cons l'' outer => exact ⟨hp ▸ h.1, hp ▸ h.2.1, h.2.2⟩

theorem inside {name : String} (h : Nested ps (l :: outer)) (hp : l.path ++ [name] ∈ ps) :
    Nested ps (l.inside name :: l :: outer) :=
  ⟨⟨name, rfl⟩, hp, h⟩

theorem drop {d : Nat} (h : Nested ps layers) (hd : layers.drop d = l :: outer) : Nested ps (l :: outer) := by
  induction d generalizing layers with
  | zero => exact hd ▸ h
  | succ d ih =>
    match layers, h with
    | [_], _ => simp at hd
    | _ :: l' :: outer', h => exact ih h.2.2 hd

theorem length_lt (h : Nested ps (l :: outer)) (hl' : l' ∈ outer) : l'.path.length < l.path.length := by
  induction outer generalizing l with
  | nil => cases hl'
  | cons l'' outer ih =>
    obtain ⟨⟨name, hname⟩, -, h⟩ := h
    rw [hname, List.length_append, List.length_singleton]
    rcases List.mem_cons.mp hl' with rfl | hl'
    · omega
    · have := ih h hl'
      omega

theorem path_of_mem (h : Nested ps (l :: outer)) (hl' : l' ∈ l :: outer) : l'.path <+: l.path := by
  induction outer generalizing l with
  | nil =>
    obtain rfl := List.mem_singleton.mp hl'
    exact List.prefix_rfl
  | cons l'' outer ih =>
    rcases List.mem_cons.mp hl' with rfl | hl'
    · exact List.prefix_rfl
    · obtain ⟨⟨name, hname⟩, -, h⟩ := h
      rw [hname]
      exact (ih h hl').trans (List.prefix_append ..)

theorem owners_nodup (h : Nested ps (l :: outer)) : (owners ps (l :: outer)).Nodup := by
  induction outer generalizing l with
  | nil => simp [owners]
  | cons l'' outer ih =>
    refine List.nodup_cons.mpr ⟨fun hmem => ?_, ih h.2.2⟩
    obtain ⟨l', hl', heq⟩ := List.mem_map.mp hmem
    have hlt := h.length_lt hl'
    have hne : l.path ≠ [] := fun hnil => by simp [hnil] at hlt
    simp only [owner, if_neg hne] at heq
    split at heq
    · cases heq
    · have := (List.idxOf_inj h.2.1).mp (Option.some.inj heq).symm
      rw [this] at hlt
      exact lt_irrefl _ hlt

end Nested

/-- The procedure stands in the code, ready to be called. -/
def Standing (J : JumpCode) (ps : List (List String)) (home : Layer) (outer : List Layer) (name : String)
    (body : Block) : Prop :=
  body.Scoped (home :: outer) (home.inside name) ∧
    ∃ i k, J.EntryAt ps (home.path ++ [name]) i ∧ body.At J ps (home :: outer) (home.inside name) i k ∧
      J.StepAt k .leave none

/-- Every procedure in sight can be called. -/
structure Setting (J : JumpCode) (ps : List (List String)) (outer : List Layer) (l : Layer) : Prop where
  nested : Nested ps (l :: outer)
  procedures : EachProcedure (Standing J ps) (l :: outer)

variable {J : JumpCode}

theorem Setting.decls (h : Setting J ps outer l) (ds : List Decl) :
    Setting J ps outer (Decl.afterAll outer l ds) := by
  induction ds generalizing l with
  | nil => exact h
  | cons d ds ih => exact ih ⟨h.nested.congr rfl, h.procedures.add_binding (by cases d <;> rfl)⟩

/-- A procedure in sight, and what its body sees. -/
theorem Setting.callee {name : String} {f : Found} {body : Block} (h : Setting J ps outer l)
    (hf : lookup (l :: outer) name = some f) (he : f.entry = .procedure name body) :
    Standing J ps f.home f.outer name body ∧ Setting J ps (f.home :: f.outer) (f.home.inside name) := by
  obtain ⟨hstanding, heach⟩ := h.procedures.lookup hf he
  obtain ⟨-, l', hdrop, hpath, -⟩ := lookup_home hf
  have hnested : Nested ps (f.home :: f.outer) := (h.nested.drop hdrop).congr hpath
  obtain ⟨-, i, k, ⟨hmem, -⟩, -⟩ := id hstanding
  exact ⟨hstanding, hnested.inside hmem, heach.inside name⟩

end Replay

open Replay

variable {ps : List (List String)} {outer : List Layer} {J : JumpCode}

mutual

theorem Stmt.setting {J : JumpCode} {ps : List (List String)} {outer : List Layer} {l : Layer} {i k : Nat}
    (s : Stmt) (hat : s.At J ps outer l i k) (hs : s.Scoped outer l) (h : Setting J ps outer l) :
    Setting J ps outer (s.after l) := by
  match s with
  | .assign .. | .read .. | .write .. | .call .. => exact h
  | .ifElse cond body elseIfs (some other) line =>
    obtain ⟨a, b, next, -, -, hb, he⟩ := hat
    obtain ⟨-, hsb, hse, hso⟩ := hs
    obtain ⟨h, b', next', hlast⟩ := ElseIf.settingAll elseIfs he hse (Stmt.settingAll body hb hsb h)
    exact Stmt.settingAll other hlast.2.2 hso h
  | .ifElse cond body elseIfs none line =>
    obtain ⟨a, b, next, -, -, hb, he⟩ := hat
    obtain ⟨-, hsb, hse, -⟩ := hs
    exact (ElseIf.settingAll elseIfs he hse (Stmt.settingAll body hb hsb h)).1
  | .whileDo cond body line =>
    obtain ⟨a, b, -, -, hb, -⟩ := hat
    exact Stmt.settingAll body hb hs.2 h
  | .forTo counter start bound body line =>
    obtain ⟨a, b, c, -, -, -, -, hb, -⟩ := hat
    exact Stmt.settingAll body hb hs.2.2.2 h
  | .group body line => exact Stmt.settingAll body hat hs h
  | .procedure name body line =>
    obtain ⟨b, -, he, hb, hl, -⟩ := hat
    exact ⟨h.nested.congr rfl, h.procedures.add_procedure ⟨hs.2.2, _, b, he, hb, hl⟩⟩

theorem Stmt.settingAll {J : JumpCode} {ps : List (List String)} {outer : List Layer} {l : Layer} {i k : Nat}
    (ss : List Stmt) (hat : Stmt.AtAll J ps outer l ss i k) (hs : Stmt.ScopedAll outer l ss)
    (h : Setting J ps outer l) : Setting J ps outer (Stmt.afterAll l ss) := by
  match ss with
  | [] => exact h
  | s :: ss =>
    obtain ⟨j, hfirst, hrest⟩ := hat
    exact Stmt.settingAll ss hrest hs.2 (Stmt.setting s hfirst hs.1 h)

/-- What comes behind the guarded branches stands behind them. -/
theorem ElseIf.settingAll {J : JumpCode} {ps : List (List String)} {outer : List Layer} {l : Layer}
    {exit b next : Nat} {last : Layer → Nat → Nat → Prop} (es : List ElseIf)
    (hat : ElseIf.AtAll J ps outer l exit es last b next) (hs : ElseIf.ScopedAll outer l es)
    (h : Setting J ps outer l) :
    Setting J ps outer (ElseIf.afterAll l es) ∧ ∃ b next, last (ElseIf.afterAll l es) b next := by
  match es with
  | [] => exact ⟨h, b, next, hat⟩
  | ⟨cond, body, line⟩ :: others =>
    obtain ⟨-, -, a, c, next', -, -, hb, ho⟩ := hat
    exact ElseIf.settingAll others ho hs.2.2 (Stmt.settingAll body hb hs.2.1 h)

end

section

variable {operate : BinOp → Int32 → Int32 → Option Int32} {readValue : Int32} {bound : Nat}
  {layers : List Layer} {l : Layer} {m0 m : Machine} {s : State} {i k : Nat}

namespace Replay

variable {name : String} {f : Found}

/-- The results of `operate` are those of the machine. -/
def Sound (operate : BinOp → Int32 → Int32 → Option Int32) : Prop :=
  ∀ op l r v, operate op l r = some v → op.apply l r = some v

theorem Sound.apply : Sound BinOp.apply := fun _ _ _ _ h => h

theorem owners_congr {l' : Layer} (ps : List (List String)) (hp : l'.path = l.path) :
    owners ps (l' :: outer) = owners ps (l :: outer) := by
  simp [owners, hp]

theorem owners_depth (ps : List (List String)) (hf : lookup layers name = some f) :
    (owners ps layers)[f.depth]? = some (owner ps f.home.path) := by
  obtain ⟨-, l', hdrop, hpath, -⟩ := lookup_home hf
  have : layers[f.depth]? = some l' := by
    have := congrArg (·[0]?) hdrop
    simpa [List.getElem?_drop] using this
  simp [owners, this, hpath]

/-- What a procedure sees: itself, and what its declaration sees. -/
theorem owners_inside (ps : List (List String)) (hf : lookup layers name = some f) :
    owners ps (f.home.inside name :: f.home :: f.outer) =
      some (ps.idxOf (f.home.path ++ [name])) :: (owners ps layers).drop f.depth := by
  obtain ⟨-, l', hdrop, hpath, -⟩ := lookup_home hf
  have : (owners ps layers).drop f.depth = owners ps (l' :: f.outer) := by
    rw [owners, ← List.map_drop, hdrop, owners]
  rw [this]
  simp [owners, owner, hpath]

theorem varRef_of_lookup (hf : lookup layers name = some f) :
    varRef ps layers name = ⟨owner ps f.home.path, name⟩ := by
  simp [varRef, hf]

end Replay

theorem Expr.meets (hop : Sound operate) {e : Expr} (hat : e.At J ps layers i k) (hs : e.Scoped layers)
    {stack : List Int32} (h : Tracks (owners ps layers) m0 s i stack m) :
    Meets operate J readValue bound (e.eval operate layers s) m
      (fun v m' => Tracks (owners ps layers) m0 s k (v :: stack) m') := by
  induction e generalizing i k stack m with
  | binary op left right line ihl ihr =>
    obtain ⟨j, j', hl, hr, hs', rfl⟩ := hat
    refine (ihl hl hs.1 h).bind fun a m1 h1 => (ihr hr hs.2 h1).bind fun b m2 h2 => ?_
    cases hv : operate op a b with
    | some v =>
      obtain ⟨m3, ha, h3⟩ := h2.step_oper operate readValue hs' hv (hop _ _ _ _ hv)
      exact .step ha (.done h3)
    | none => exact ⟨0, m2, .refl m2, op, b, a, stack, h2.pc ▸ hs', h2.stack, hv⟩
  | literal value line =>
    obtain ⟨hs', rfl⟩ := hat
    obtain ⟨m1, ha, h1⟩ := h.step_push operate readValue hs'
    exact .step ha (.done h1)
  | ident name line =>
    obtain ⟨hs', rfl⟩ := hat
    obtain ⟨f, hf, hb⟩ := hs
    rw [varRef_of_lookup hf] at hs'
    obtain ⟨m1, ha, h1⟩ := h.step_load operate readValue hs' (owners_depth ps hf)
    rw [Expr.eval, s.read_of_lookup hf hb]
    exact .step ha (.done h1)

theorem Decl.tracks (operate : BinOp → Int32 → Int32 → Option Int32) (readValue : Int32) {d : Decl}
    (hat : d.At J layers (owner ps l.path) i k) (h : Tracks (owners ps (l :: outer)) m0 s i [] m) :
    ∃ n m', Steps operate J readValue n m m' ∧
      Tracks (owners ps (l :: outer)) m0 (d.exec layers s) k [] m' := by
  match d with
  | .var name none line =>
    obtain ⟨hs, rfl⟩ := hat
    obtain ⟨m1, ha, h1⟩ := h.step_declare operate readValue hs rfl
    exact ⟨1, m1, .cons ha (.refl m1), h1⟩
  | .var name (some init) line =>
    obtain ⟨hs1, hs2, hs3, rfl⟩ := hat
    obtain ⟨m1, ha1, h1⟩ := h.step_declare operate readValue hs1 rfl
    obtain ⟨m2, ha2, h2⟩ := h1.step_push operate readValue hs2
    obtain ⟨m3, ha3, h3⟩ := h2.step_store operate readValue (d := 0) hs3 rfl
    exact ⟨3, m3, .cons ha1 (.cons ha2 (.cons ha3 (.refl m3))), h3⟩
  | .const name init line =>
    obtain ⟨hs, rfl⟩ := hat
    obtain ⟨m1, ha, h1⟩ := h.step_const operate readValue (d := 0) hs rfl
    exact ⟨1, m1, .cons ha (.refl m1), h1⟩

theorem Decl.tracksAll (operate : BinOp → Int32 → Int32 → Option Int32) (readValue : Int32) {ds : List Decl}
    (hat : Decl.AtAll J ps outer l ds i k) (h : Tracks (owners ps (l :: outer)) m0 s i [] m) :
    ∃ n m', Steps operate J readValue n m m' ∧
      Tracks (owners ps (l :: outer)) m0 (Decl.execAll outer l ds s) k [] m' := by
  induction ds generalizing l i s m with
  | nil => exact ⟨0, m, .refl m, (show i = k from hat) ▸ h⟩
  | cons d ds ih =>
    obtain ⟨j, hd, hds⟩ := hat
    obtain ⟨n, m1, hs1, h1⟩ := Decl.tracks operate readValue hd h
    obtain ⟨n', m2, hs2, h2⟩ := ih hds h1
    exact ⟨_, m2, hs1.trans hs2, h2⟩

theorem Expr.meets_writeAll (hop : Sound operate) {line : Nat} {es : List Expr}
    (hat : Expr.WritesAt J ps layers line es i k) (hs : ∀ e ∈ es, e.Scoped layers)
    (h : Tracks (owners ps layers) m0 s i [] m) :
    Meets operate J readValue bound (Expr.writeAll operate layers es s) m
      (fun s' m' => Tracks (owners ps layers) m0 s' k [] m') := by
  induction es generalizing i s m with
  | nil => exact .done ((show i = k from hat) ▸ h)
  | cons e es ih =>
    obtain ⟨j, he, hw, hes⟩ := hat
    obtain ⟨hse, hses⟩ := List.forall_mem_cons.mp hs
    refine (Expr.meets hop he hse h).bind fun v m1 h1 => ?_
    obtain ⟨m2, ha, h2⟩ := h1.step_write operate readValue hw
    exact .step ha (ih hes hses h2)

theorem ReadsAt.meets {line : Nat} {names : List String} (hat : ReadsAt J ps layers line names i k)
    (hs : ∀ name ∈ names, Assignable layers name) (h : Tracks (owners ps layers) m0 s i [] m) :
    Meets operate J readValue bound (State.assignAll layers readValue names s) m
      (fun s' m' => Tracks (owners ps layers) m0 s' k [] m') := by
  induction names generalizing i s m with
  | nil => exact .done ((show i = k from hat) ▸ h)
  | cons name names ih =>
    obtain ⟨hr, hrest⟩ := hat
    obtain ⟨⟨f, hf, he⟩, hnames⟩ := List.forall_mem_cons.mp hs
    rw [varRef_of_lookup hf] at hr
    obtain ⟨m1, ha, h1⟩ := h.step_read operate readValue hr (owners_depth ps hf)
    rw [State.assignAll, s.assign_of_lookup hf he]
    exact .step ha (ih hrest hnames h1)

namespace Replay

variable {line : Option Nat} {turns : Nat} {body : State → Result State}

/-- What a call may do: run the body from one end to the other. -/
def CallMeets (operate : BinOp → Int32 → Int32 → Option Int32) (J : JumpCode) (readValue : Int32)
    (ps : List (List String)) (bound : Nat) (call : List Layer → Layer → Block → State → Result State) : Prop :=
  ∀ {outer : List Layer} {l : Layer} {b : Block} {s : State} {m0 m : Machine} {i k : Nat},
    b.At J ps outer l i k → b.Scoped outer l → Setting J ps outer l →
    Tracks (owners ps (l :: outer)) m0 s i [] m →
    Meets operate J readValue bound (call outer l b s) m
      (fun s' m' => Tracks (owners ps (l :: outer)) m0 s' k [] m')

theorem Tracks.meets_assign {name : String} {v : Int32} (ha : Assignable layers name)
    (hs : J.StepAt i (.store (varRef ps layers name)) line) (h : Tracks (owners ps layers) m0 s i [v] m) :
    Meets operate J readValue bound (s.assign layers name v) m
      (fun s' m' => Tracks (owners ps layers) m0 s' (i + 1) [] m') := by
  obtain ⟨f, hf, he⟩ := ha
  rw [varRef_of_lookup hf] at hs
  rw [s.assign_of_lookup hf he]
  obtain ⟨m1, ha, h1⟩ := h.step_store operate readValue hs (owners_depth ps hf)
  exact .step ha (.done h1)

theorem Tracks.meets_call {n : Nat} {call : List Layer → Layer → Block → State → Result State}
    (hcall : CallMeets operate J readValue ps n call) {name : String} {line : Nat}
    (hat : (Stmt.call name line).At J ps outer l i k) (hs : Callable (l :: outer) name)
    (hset : Setting J ps outer l) (h : Tracks (owners ps (l :: outer)) m0 s i [] m) :
    Meets operate J readValue (n + 1) ((Stmt.call name line).exec operate readValue turns call outer l s) m
      (fun s' m' => Tracks (owners ps (l :: outer)) m0 s' k [] m') := by
  obtain ⟨hstep, rfl⟩ := hat
  obtain ⟨f, body, hf, he⟩ := hs
  obtain ⟨⟨hscoped, i', k', ⟨-, text, hproc⟩, hbody, hleave⟩, hinside⟩ := hset.callee hf he
  have howners := owners_inside ps hf
  have hnodup := hinside.nested.owners_nodup
  rw [howners] at hnodup
  rw [procedureNumber, hf, Option.map_some, Option.getD_some] at hstep
  obtain ⟨ha1, h1⟩ := h.step_call operate readValue hstep hproc hnodup
  have hlen := (List.getElem?_eq_some_iff.mp (owners_depth ps hf)).1.le
  have hexec : (Stmt.call name line).exec operate readValue turns call outer l s =
      call (f.home :: f.outer) (f.home.inside name) body (s.enter f.depth) >>=
        fun inner => .done (inner.leave s f.depth) := by
    obtain ⟨depth, entry, home, outer'⟩ := f
    subst he
    simp only [Stmt.exec, hf]
    rfl
  rw [hexec]
  rw [← howners] at h1
  refine .step_succ ha1 ((hcall hbody hscoped hinside h1).bind fun s2 m2 h2 => ?_)
  rw [howners] at h2
  obtain ⟨m3, ha3, h3⟩ := (h.count _).step_leave operate readValue hlen h2 hleave
  exact .step ha3 (.done h3)

/-- A loop with a guard, given what its body does. -/
theorem Meets.whileLoop (hop : Sound operate) {cond : Expr} {a b : Nat}
    (hc : cond.At J ps layers i a) (hs : cond.Scoped layers)
    (hj : J.StepAt a (.jumpIfFalse k) line) (hback : J.StepAt b (.jump i) none)
    (hbody : ∀ {s m}, Tracks (owners ps layers) m0 s (a + 1) [] m →
      Meets operate J readValue bound (body s) m (fun s' m' => Tracks (owners ps layers) m0 s' b [] m'))
    (ht : bound ≤ turns) (h : Tracks (owners ps layers) m0 s i [] m) :
    Meets operate J readValue bound
      (Meaning.loop (fun s => do return (← cond.eval operate layers s) ≠ 0) body turns s) m
      (fun s' m' => Tracks (owners ps layers) m0 s' k [] m') := by
  rw [← Nat.min_eq_right ht]
  refine .loop (I := fun s m => Tracks (owners ps layers) m0 s i [] m)
    (T := fun t s m => ∃ v, t = decide (v ≠ 0) ∧ Tracks (owners ps layers) m0 s a [v] m) ?_ ?_ ?_ turns h
  · intro s m h
    exact (Expr.meets hop hc hs h).bind fun v m' h' => .done ⟨v, rfl, h'⟩
  · rintro s m ⟨v, hv, h⟩
    obtain ⟨m1, ha, h1⟩ := h.step_jumpIfFalse operate readValue hj
    rw [if_pos (of_decide_eq_true hv.symm)] at h1
    exact ⟨m1, ha, (hbody h1).andStep fun s' m' h' => h'.step_jump operate readValue hback⟩
  · rintro s m ⟨v, hv, h⟩
    obtain ⟨m1, ha, h1⟩ := h.step_jumpIfFalse operate readValue hj
    rw [if_neg (of_decide_eq_false hv.symm)] at h1
    exact ⟨m1, ha, h1⟩

/-- A counting loop from its first test on, given what its body does. -/
theorem Meets.forLoop (hop : Sound operate) {counter : String} {limit : Expr} {b c : Nat}
    (hc : Assignable layers counter)
    (hl : limit.At J ps layers i b) (hs : limit.Scoped layers)
    (ht : J.StepAt b (.forTest (varRef ps layers counter) k) line)
    (hback : J.StepAt c (.forStep (varRef ps layers counter) i) none)
    (hbody : ∀ {s m}, Tracks (owners ps layers) m0 s (b + 1) [] m →
      Meets operate J readValue bound (body s) m (fun s' m' => Tracks (owners ps layers) m0 s' c [] m'))
    (hturns : bound ≤ turns) (h : Tracks (owners ps layers) m0 s i [] m) :
    Meets operate J readValue bound
      (Meaning.loop (fun s => do
          let limit ← limit.eval operate layers s
          return (← s.read layers counter) < limit)
        (fun s => do
          let s ← body s
          s.assign layers counter ((← s.read layers counter) + 1)) turns s) m
      (fun s' m' => Tracks (owners ps layers) m0 s' k [] m') := by
  obtain ⟨f, hf, he⟩ := hc
  have hread (s : State) := s.read_of_lookup hf (he ▸ rfl)
  rw [varRef_of_lookup hf] at ht hback
  rw [← Nat.min_eq_right hturns]
  refine .loop (I := fun s m => Tracks (owners ps layers) m0 s i [] m)
    (T := fun t s m => ∃ v, t = decide ((s.get f.depth counter).getD 0 < v) ∧
      Tracks (owners ps layers) m0 s b [v] m) ?_ ?_ ?_ turns h
  · intro s m h
    refine (Expr.meets hop hl hs h).bind fun v m' h' => ?_
    rw [hread]
    exact .done ⟨v, rfl, h'⟩
  · rintro s m ⟨v, hv, h⟩
    obtain ⟨m1, ha, h1⟩ := h.step_forTest operate readValue ht (owners_depth ps hf)
    rw [if_pos (of_decide_eq_true hv.symm)] at h1
    refine ⟨m1, ha, (hbody h1).bind fun s' m' h' => ?_⟩
    obtain ⟨m2, ha2, h2⟩ := h'.step_forStep operate readValue hback (owners_depth ps hf)
    rw [hread]
    refine .step ha2 ?_
    show Meets operate J readValue bound (s'.assign layers counter _) m2 _
    rw [s'.assign_of_lookup hf he]
    exact .done h2
  · rintro s m ⟨v, hv, h⟩
    obtain ⟨m1, ha, h1⟩ := h.step_forTest operate readValue ht (owners_depth ps hf)
    rw [if_neg (of_decide_eq_false hv.symm)] at h1
    exact ⟨m1, ha, h1⟩

theorem Tracks.steps_exit {os : List (Option Nat)} {b exit : Nat} (h : Tracks os m0 s b [] m)
    (hb : b = exit ∨ J.StepAt b (.jump exit) none) :
    ∃ n m', Steps operate J readValue n m m' ∧ Tracks os m0 s exit [] m' := by
  rcases hb with rfl | hs
  · exact ⟨0, m, .refl m, h⟩
  · obtain ⟨m1, ha, h1⟩ := h.step_jump operate readValue hs
    exact ⟨1, m1, .cons ha (.refl m1), h1⟩

theorem Meets.branch (hop : Sound operate) {cond : Expr} {a b next exit : Nat}
    {others : State → Result State} (hc : cond.At J ps layers i a) (hs : cond.Scoped layers)
    (hj : J.StepAt a (.jumpIfFalse next) line)
    (hbody : ∀ {m}, Tracks (owners ps layers) m0 s (a + 1) [] m →
      Meets operate J readValue bound (body s) m (fun s' m' => Tracks (owners ps layers) m0 s' b [] m'))
    (hexit : b = exit ∨ J.StepAt b (.jump exit) none)
    (hothers : ∀ {m}, Tracks (owners ps layers) m0 s next [] m →
      Meets operate J readValue bound (others s) m (fun s' m' => Tracks (owners ps layers) m0 s' exit [] m'))
    (h : Tracks (owners ps layers) m0 s i [] m) :
    Meets operate J readValue bound
      (do if (← cond.eval operate layers s) ≠ 0 then body s else others s) m
      (fun s' m' => Tracks (owners ps layers) m0 s' exit [] m') := by
  refine (Expr.meets hop hc hs h).bind fun v m1 h1 => ?_
  obtain ⟨m2, ha, h2⟩ := h1.step_jumpIfFalse operate readValue hj
  refine .step ha ?_
  by_cases hv : v ≠ 0
  · rw [if_pos hv] at h2 ⊢
    exact (hbody h2).andSteps fun s' m' h' => h'.steps_exit hexit
  · rw [if_neg hv] at h2 ⊢
    exact hothers h2

end Replay

theorem ElseIf.AtAll.exit {es : List ElseIf} {otherwise : Option (List Stmt)} {exit b next : Nat}
    (h : ElseIf.AtAll J ps outer l exit es (fun l b next => Stmt.LastAt J ps outer l exit otherwise b next) b next) :
    b = exit ∨ J.StepAt b (.jump exit) none := by
  match es, otherwise with
  | [], some other => exact .inr h.1
  | [], none => exact .inl h.2.symm
  | ⟨_, _, _⟩ :: _, _ => exact .inr h.1

end

variable {call : List Layer → Layer → Block → State → Result State}
  {operate : BinOp → Int32 → Int32 → Option Int32} {readValue : Int32}

section

variable {bound n turns : Nat} (hop : Sound operate)
  (hcall : CallMeets operate J readValue ps n call) (hn : bound ≤ n + 1) (ht : bound ≤ turns)

include hop hcall hn ht

set_option linter.unusedSectionVars false

mutual

theorem Stmt.meets {l : Layer} {m0 m : Machine} {σ : State} {i k : Nat} (s : Stmt)
    (hat : s.At J ps outer l i k) (hs : s.Scoped outer l) (hset : Setting J ps outer l)
    (h : Tracks (owners ps (l :: outer)) m0 σ i [] m) :
    Meets operate J readValue bound (s.exec operate readValue turns call outer l σ) m
      (fun s' m' => Tracks (owners ps (l :: outer)) m0 s' k [] m') := by
  match s with
  | .assign name value line =>
    obtain ⟨j, hv, hst, rfl⟩ := hat
    exact (Expr.meets hop hv hs.2 h).bind fun v m1 h1 => h1.meets_assign hs.1 hst
  | .ifElse cond body elseIfs (some other) line =>
    obtain ⟨a, b, next, hc, hj, hb, he⟩ := hat
    obtain ⟨hsc, hsb, hse, hso⟩ := hs
    have hset1 := Stmt.settingAll body hb hsb hset
    refine .branch hop hc hsc hj (Stmt.meetsAll body hb hsb hset) he.exit (fun h' => ?_) h
    rw [← owners_congr ps (Stmt.afterAll_path l body)] at h' ⊢
    refine ElseIf.meetsAll elseIfs he hse hset1 ?_ h'
    rintro b next m ⟨-, rfl, ho⟩ h''
    rw [← owners_congr ps (ElseIf.afterAll_path _ elseIfs)] at h'' ⊢
    exact Stmt.meetsAll other ho hso (ElseIf.settingAll elseIfs he hse hset1).1 h''
  | .ifElse cond body elseIfs none line =>
    obtain ⟨a, b, next, hc, hj, hb, he⟩ := hat
    obtain ⟨hsc, hsb, hse, -⟩ := hs
    refine .branch hop hc hsc hj (Stmt.meetsAll body hb hsb hset) he.exit (fun h' => ?_) h
    rw [← owners_congr ps (Stmt.afterAll_path l body)] at h' ⊢
    refine ElseIf.meetsAll elseIfs he hse (Stmt.settingAll body hb hsb hset) ?_ h'
    rintro b next m ⟨rfl, rfl⟩ h''
    exact .done h''
  | .whileDo cond body line =>
    obtain ⟨a, b, hc, hj, hb, hback, rfl⟩ := hat
    exact .whileLoop hop hc hs.1 hj hback (Stmt.meetsAll body hb hs.2 hset) ht h
  | .forTo counter start limit body line =>
    obtain ⟨a, b, c, hst, hstore, hl, htest, hb, hback, rfl⟩ := hat
    obtain ⟨hsc, hss, hsl, hsb⟩ := hs
    refine (Expr.meets hop hst hss h).bind fun v m1 h1 => (h1.meets_assign hsc hstore).bind fun s2 m2 h2 => ?_
    exact .forLoop hop hsc hl hsl htest hback (Stmt.meetsAll body hb hsb hset) ht h2
  | .read names line => exact ReadsAt.meets hat hs h
  | .write values line => exact Expr.meets_writeAll hop hat hs h
  | .call name line => exact (Tracks.meets_call hcall hat hs hset h).weaken hn
  | .group body line => exact Stmt.meetsAll body hat hs hset h
  | .procedure name body line =>
    obtain ⟨b, hj, -⟩ := hat
    obtain ⟨m1, ha, h1⟩ := h.step_jump operate readValue hj
    exact .step ha (.done h1)

theorem Stmt.meetsAll {l : Layer} {m0 m : Machine} {σ : State} {i k : Nat} (ss : List Stmt)
    (hat : Stmt.AtAll J ps outer l ss i k) (hs : Stmt.ScopedAll outer l ss) (hset : Setting J ps outer l)
    (h : Tracks (owners ps (l :: outer)) m0 σ i [] m) :
    Meets operate J readValue bound (Stmt.execAll operate readValue turns call outer l ss σ) m
      (fun s' m' => Tracks (owners ps (l :: outer)) m0 s' k [] m') := by
  match ss with
  | [] => exact .done ((show i = k from hat) ▸ h)
  | s :: ss =>
    obtain ⟨j, hfirst, hrest⟩ := hat
    refine (Stmt.meets s hfirst hs.1 hset h).bind fun s' m' h' => ?_
    rw [← owners_congr ps (Stmt.after_path l s)] at h' ⊢
    exact Stmt.meetsAll ss hrest hs.2 (Stmt.setting s hfirst hs.1 hset) h'

/-- The branches behind a failed guard; `hlast` is about what is run when all guards fail. -/
theorem ElseIf.meetsAll {l : Layer} {m0 m : Machine} {σ : State} {exit b next : Nat}
    {otherwise : Option (List Stmt)} {last : Layer → State → Result State} (es : List ElseIf)
    (hat : ElseIf.AtAll J ps outer l exit es
      (fun l b next => Stmt.LastAt J ps outer l exit otherwise b next) b next)
    (hs : ElseIf.ScopedAll outer l es) (hset : Setting J ps outer l)
    (hlast : ∀ {b next m}, Stmt.LastAt J ps outer (ElseIf.afterAll l es) exit otherwise b next →
      Tracks (owners ps (l :: outer)) m0 σ next [] m →
      Meets operate J readValue bound (last (ElseIf.afterAll l es) σ) m
        (fun s' m' => Tracks (owners ps (l :: outer)) m0 s' exit [] m'))
    (h : Tracks (owners ps (l :: outer)) m0 σ next [] m) :
    Meets operate J readValue bound (ElseIf.execAll operate readValue turns call outer l es last σ) m
      (fun s' m' => Tracks (owners ps (l :: outer)) m0 s' exit [] m') := by
  match es with
  | [] => exact hlast hat h
  | ⟨cond, body, line⟩ :: others =>
    obtain ⟨-, rfl, a, c, next', hc, hj, hb, ho⟩ := hat
    obtain ⟨hsc, hsb, hso⟩ := hs
    rw [ElseIf.execAll]
    refine .branch hop hc hsc hj (Stmt.meetsAll body hb hsb hset) ho.exit (fun h' => ?_) h
    rw [← owners_congr ps (Stmt.afterAll_path l body)] at h' hlast ⊢
    exact ElseIf.meetsAll others ho hso (Stmt.settingAll body hb hsb hset) hlast h'

end

end

section

variable {bound n turns : Nat} {l : Layer} {m0 m : Machine} {σ : State} {i k : Nat}

theorem Block.setting {b : Block} (hat : b.At J ps outer l i k) (hs : b.Scoped outer l)
    (h : Setting J ps outer l) : Setting J ps outer (b.after outer l) := by
  match b with
  | ⟨decls, some s, line⟩ =>
    obtain ⟨j, -, hat⟩ := hat
    exact Stmt.setting s hat hs.2 (h.decls decls)
  | ⟨decls, none, line⟩ => exact h.decls decls

theorem Block.meets (hop : Sound operate) (hcall : CallMeets operate J readValue ps n call) (hn : bound ≤ n + 1)
    (ht : bound ≤ turns) {b : Block} (hat : b.At J ps outer l i k) (hs : b.Scoped outer l)
    (hset : Setting J ps outer l) (h : Tracks (owners ps (l :: outer)) m0 σ i [] m) :
    Meets operate J readValue bound (b.exec operate readValue turns call outer l σ) m
      (fun s' m' => Tracks (owners ps (l :: outer)) m0 s' k [] m') := by
  match b with
  | ⟨decls, some s, line⟩ =>
    obtain ⟨j, hd, hat⟩ := hat
    obtain ⟨n', m1, hsteps, h1⟩ := Decl.tracksAll operate readValue hd h
    rw [← owners_congr ps (Decl.afterAll_path outer l decls)] at h1 ⊢
    exact .steps hsteps (Stmt.meets hop hcall hn ht s hat hs.2 (hset.decls decls) h1)
  | ⟨decls, none, line⟩ =>
    obtain ⟨j, hd, rfl⟩ := hat
    obtain ⟨n', m1, hsteps, h1⟩ := Decl.tracksAll operate readValue hd h
    exact .steps hsteps (.done h1)

theorem callWithin_meets (hop : Sound operate) (hn : n ≤ turns) :
    CallMeets operate J readValue ps n (callWithin operate readValue turns n) := by
  induction n with
  | zero =>
    intro outer l b s m0 m i k _ _ _ _
    exact ⟨0, m, Nat.zero_le 0, .refl m⟩
  | succ n ih =>
    intro outer l b s m0 m i k hat hs hset h
    exact Block.meets hop (ih (Nat.le_of_succ_le hn)) le_rfl hn hat hs hset h

theorem Block.meetsAll (hop : Sound operate) (hcall : CallMeets operate J readValue ps n call) (hn : bound ≤ n + 1)
    (ht : bound ≤ turns) {bs : List Block} (hat : Block.AtAll J ps outer l bs i k)
    (hs : Block.ScopedAll outer l bs) (hset : Setting J ps outer l)
    (h : Tracks (owners ps (l :: outer)) m0 σ i [] m) :
    Meets operate J readValue bound (Block.execAll operate readValue turns call outer l bs σ) m
      (fun s' m' => Tracks (owners ps (l :: outer)) m0 s' k [] m') := by
  induction bs generalizing l i σ m with
  | nil => exact .done ((show i = k from hat) ▸ h)
  | cons b bs ih =>
    obtain ⟨j, hb, hbs⟩ := hat
    refine (Block.meets hop hcall hn ht hb hs.1 hset h).bind fun s' m' h' => ?_
    have hpath : (b.after outer l).path = l.path := (Block.adds b hs.1).path
    rw [← owners_congr ps hpath] at h' ⊢
    exact ih hbs hs.2 (Block.setting hb hs.1 hset) h'

/-- The machine has run a program to its end, where the meaning is `s`. -/
structure Replay.Ended (J : JumpCode) (s : State) (m : Machine) : Prop where
  pc : m.pc = J.code.size
  stack : m.stack = []
  calls : m.calls = #[]
  output : m.output = s.output
  globals : ∀ name, m.globals.value name = s.globals[name]?

/-- The machine does what a well-scoped program means. -/
theorem Program.meets (hop : Sound operate) {p : Program} (h : p.Scoped)
    (hat : Block.AtAll J (procedurePaths p.declared) [] .initial p.blocks 0 J.code.size) (readValue : Int32)
    (fuel : Nat) :
    Meets operate J readValue fuel (p.exec operate readValue fuel) .initial (fun s m => Ended J s m) := by
  have hset : Setting J (procedurePaths p.declared) [] .initial := ⟨rfl, .initial⟩
  have hstart : Tracks (owners (procedurePaths p.declared) [.initial]) .initial .initial 0 [] .initial := by
    refine ⟨rfl, rfl, rfl, by simp [owners], rfl, ?_, rfl, fun _ _ => rfl⟩
    intro d o fr hd hf
    match d, hd, hf with
    | 0, hd, hf =>
      cases hd
      cases hf
      exact ⟨.outside, rfl, fun name => rfl⟩
  refine (Block.meetsAll hop (callWithin_meets hop le_rfl) (Nat.le_succ fuel) le_rfl hat h hset hstart).imp ?_
  intro s m ht
  obtain ⟨fr, hfr⟩ := List.length_eq_one_iff.mp ht.length
  obtain ⟨pl, hpl, hv⟩ := ht.holds 0 none fr rfl (by rw [hfr]; rfl)
  cases hpl
  refine ⟨ht.pc, ht.stack, ?_, ht.output, fun name => ?_⟩
  · have := ht.shape
    simpa [Machine.shape, Machine.initial] using this
  · rw [State.globals, hfr]
    exact hv name

end

end PLZero
