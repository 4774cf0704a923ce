import PLZero.Proofs.Placed
import Mathlib.Data.List.Nodup

/-! Jump code of a well-scoped program: making it succeeds, and every part of the program stands in it where
it was written. Reading the code of one part leaves the code made before it as it is. -/

namespace PLZero

namespace Replay

/-- Every scope and procedure in sight is among `done`. -/
def Seen (done : List (List String)) (layers : List Layer) : Prop :=
  ∀ l ∈ layers, (l.path ≠ [] → l.path ∈ done) ∧
    ∀ e ∈ l.entries, e.isProcedure = true → l.path ++ [e.name] ∈ done

namespace Seen

variable {done done' : List (List String)} {layers outer : List Layer} {l : Layer}

theorem initial : Seen done [Layer.initial] := by
  intro l hl
  rw [List.mem_singleton] at hl
  subst hl
  exact ⟨fun h => absurd rfl h, by simp [Layer.initial]⟩

theorem mono (h : Seen done layers) (hd : ∀ path ∈ done, path ∈ done') : Seen done' layers :=
  fun l hl => ⟨fun hp => hd _ ((h l hl).1 hp), fun e he hp => hd _ ((h l hl).2 e he hp)⟩

theorem inside {name : String} (h : Seen done (l :: outer)) (hd : l.path ++ [name] ∈ done) :
    Seen done (l.inside name :: l :: outer) :=
  List.forall_mem_cons.mpr ⟨⟨fun _ => hd, by simp⟩, h⟩

theorem add {e : ScopeEntry} (h : Seen done (l :: outer))
    (he : e.isProcedure = true → l.path ++ [e.name] ∈ done) : Seen done (l.add e :: outer) := by
  obtain ⟨⟨hp, hs⟩, ho⟩ := List.forall_mem_cons.mp h
  exact List.forall_mem_cons.mpr ⟨⟨hp, List.forall_mem_cons.mpr ⟨he, hs⟩⟩, ho⟩

theorem lookup {name : String} {f : Found} (h : Seen done layers) (hf : lookup layers name = some f) :
    (f.home.path ≠ [] → f.home.path ∈ done) ∧
      (f.entry.isProcedure = true → f.home.path ++ [name] ∈ done) := by
  obtain ⟨hname, l, hdrop, hpath, hs, rest, hrest⟩ := lookup_home hf
  obtain ⟨hp, he⟩ := h l (List.mem_of_mem_drop (hdrop ▸ List.mem_cons_self))
  rw [hpath]
  exact ⟨hp, fun hproc => hname ▸ he f.entry (hs.subset (hrest ▸ List.mem_cons_self)) hproc⟩

end Seen

namespace Lowering

def image (m : Lowering) : JumpCode := ⟨m.code, m.procedures⟩

/-- In the state `m` the procedures `done` have their numbers, and names are resolved as in the scope `l`
inside `outer`. -/
structure Ready (ps done : List (List String)) (outer : List Layer) (l : Layer) (m : Lowering) : Prop where
  scopes : m.scopes = l.scopes outer
  numbers : ∀ path ∈ done, m.numbers.lookup (dotted path) = some (ps.idxOf path)
  names : m.procedures.toList.map (·.name) = done.map dotted
  seen : Seen done (l :: outer)

variable {ps done : List (List String)} {outer : List Layer} {l : Layer} {m m' m'' : Lowering}

namespace Ready

variable {name : String}

theorem congr (h : Ready ps done outer l m) (hs : m'.scopes = m.scopes) (hn : m'.numbers = m.numbers)
    (hp : m'.procedures = m.procedures) : Ready ps done outer l m' :=
  ⟨hs ▸ h.scopes, hn ▸ h.numbers, hp ▸ h.names, h.seen⟩

theorem count (h : Ready ps done outer l m) : m.procedures.size = done.length := by
  simpa using congrArg List.length h.names

theorem var {f : Found} (h : Ready ps done outer l m)
    (hf : lookup (l :: outer) name = some f) (hb : f.entry.isProcedure = false) (i : Instr) :
    m.var name i = .ok (varRef ps (l :: outer) name) := by
  have hres : m.scopes.resolve name = some f.home.path := h.scopes ▸ Layer.resolve_scopes hf hb
  have hseen := (h.seen.lookup hf).1
  simp only [varRef, hf, Option.bind_some]
  cases hpath : f.home.path with
  | nil => simp [Lowering.var, hres, hpath, owner]
  | cons name' path =>
    rw [hpath] at hseen
    simp [Lowering.var, hres, hpath, owner, h.numbers _ (hseen (by simp))]

theorem var_of_assignable (h : Ready ps done outer l m)
    (ha : Assignable (l :: outer) name) (i : Instr) : m.var name i = .ok (varRef ps (l :: outer) name) :=
  ha.elim fun _ ⟨hf, he⟩ => h.var hf (he ▸ rfl) i

theorem call (h : Ready ps done outer l m) (hc : Callable (l :: outer) name) (i : Instr) :
    m.call name i = .ok (m.emit (.call (procedureNumber ps (l :: outer) name)) i.line) := by
  obtain ⟨f, body, hf, he⟩ := hc
  have hp : f.entry.isProcedure = true := he ▸ rfl
  have hres := Layer.resolveProcedure_scopes hf hp
  have hnum := h.numbers _ ((h.seen.lookup hf).2 hp)
  simp only [Lowering.call, Scopes.procedure, h.scopes, hres]
  simp only [bind, Except.bind, hnum, procedureNumber, hf, Option.map_some, Option.getD_some]
  rfl

end Ready

theorem foldlM_cons {i : Instr} (h : m.instr i = .ok m') (rest : List Instr) :
    (i :: rest).foldlM Lowering.instr m = rest.foldlM Lowering.instr m' := by
  rw [List.foldlM_cons, h]
  rfl

/-- Reading `code` goes from `m` to `m'`, adds to the code made so far and closes the markers it opens. -/
structure Passes (code : List Instr → List Instr) (m m' : Lowering) : Prop where
  run : ∀ rest, (code rest).foldlM Lowering.instr m = rest.foldlM Lowering.instr m'
  markers : m'.markers = m.markers
  size : m.code.size ≤ m'.code.size
  agrees : Agrees m.image m'.image 0 m.code.size

namespace Passes

theorem nil (m : Lowering) : Passes id m m := ⟨fun _ => rfl, rfl, le_rfl, ⟨fun _ _ _ => rfl, fun _ _ h => h⟩⟩

theorem trans {code code' : List Instr → List Instr} (h : Passes code m m') (h' : Passes code' m' m'') :
    Passes (fun rest => code (code' rest)) m m'' where
  run rest := (h.run _).trans (h'.run rest)
  markers := h'.markers.trans h.markers
  size := h.size.trans h'.size
  agrees := h.agrees.trans (h'.agrees.sub le_rfl h.size)

end Passes

theorem getElem?_emit (m : Lowering) (step : Step) (line : Option Nat) (x : Nat) :
    (m.emit step line).code[x]? = if x = m.code.size then some ⟨step, line⟩ else m.code[x]? :=
  Array.getElem?_push

theorem agrees_emit (m : Lowering) (step : Step) (line : Option Nat) :
    Agrees m.image (m.emit step line).image 0 m.code.size :=
  ⟨fun _ _ hx => (getElem?_emit ..).trans (if_neg (Nat.ne_of_lt hx)), fun _ _ h => h⟩

theorem Passes.emit {i : Instr} {step : Step} {scopes : Scopes}
    (h : m.instr i = .ok ({ m with scopes }.emit step (some i.line))) :
    Passes (i :: ·) m ({ m with scopes }.emit step (some i.line)) where
  run := foldlM_cons h
  markers := rfl
  size := by simp
  agrees := agrees_emit { m with scopes } step (some i.line)

theorem stepAt_emit (m : Lowering) (step : Step) (line : Option Nat) :
    (m.emit step line).image.StepAt m.code.size step line :=
  (getElem?_emit ..).trans (if_pos rfl)

/-- The step with its forward jump going to `target`. -/
def retarget (target : Nat) (e : Exec) : Exec := { e with step := e.step.withTarget target }

theorem getElem?_patch (m : Lowering) (position x : Nat) :
    (m.patch position).code[x]? =
      if position = x then m.code[x]?.map (retarget m.code.size) else m.code[x]? :=
  Array.getElem?_modify

theorem retarget_retarget (target : Nat) (e : Exec) : retarget target (retarget target e) = retarget target e := by
  obtain ⟨step, line⟩ := e
  cases step <;> rfl

theorem getElem?_patchAll (m : Lowering) (positions : List Nat) (x : Nat) :
    (m.patchAll positions).code[x]? =
      if x ∈ positions then m.code[x]?.map (retarget m.code.size) else m.code[x]? := by
  induction positions generalizing m with
  | nil => rfl
  | cons p positions ih =>
    have hstep := ih (m.patch p)
    rw [getElem?_patch, size_patch] at hstep
    refine hstep.trans ?_
    by_cases hp : p = x
    · have hidem : retarget m.code.size ∘ retarget m.code.size = retarget m.code.size :=
        funext (retarget_retarget _)
      simp [hp, hidem]
    · simp [hp, Ne.symm hp]

/-- Behind the code of `J` stands an open jump, then something that ends at `b`, then the step `close`; the
jump goes behind that. -/
structure Enclosed (J J' : JumpCode) (open' close : Step) (line : Option Nat)
    (At : JumpCode → Nat → Nat → Prop) (b : Nat) : Prop where
  size : J'.code.size = b + 1
  le : J.code.size ≤ J'.code.size
  agrees : Agrees J J' 0 J.code.size
  first : J'.StepAt J.code.size (open'.withTarget (b + 1)) line
  inner : At J' (J.code.size + 1) b
  last : J'.StepAt b close none

theorem Passes.enclose {code : List Instr → List Instr} {At : JumpCode → Nat → Nat → Prop}
    {open' close : Step} {line : Option Nat} (hp : Passes code m' m'')
    (hmono : ∀ J J' i k, Agrees J J' i k → At J i k → At J' i k)
    (hat : At m''.image m'.code.size m''.code.size) (hsize : m'.code.size = m.code.size + 1)
    (hagrees : Agrees m.image m'.image 0 m.code.size) (hopen : m'.image.StepAt m.code.size open' line) :
    Enclosed m.image ((m''.emit close none).patch m.code.size).image open' close line At m''.code.size := by
  have hlt : m.code.size < m''.code.size := by
    have := hp.size
    omega
  have hpatch (x : Nat) : ((m''.emit close none).patch m.code.size).image.code[x]? =
      if m.code.size = x then (m''.emit close none).code[x]?.map (retarget (m''.code.size + 1))
      else (m''.emit close none).code[x]? := by
    rw [← size_emit m'' close none]
    exact getElem?_patch _ _ x
  have hothers : ∀ i k, k ≤ m.code.size ∨ m.code.size < i → k ≤ m''.code.size →
      Agrees m''.image ((m''.emit close none).patch m.code.size).image i k := by
    refine fun i k hne hk => ⟨fun x hi hx => ?_, fun _ _ h => h⟩
    rw [hpatch, if_neg (by omega)]
    exact (agrees_emit m'' close none).code x (Nat.zero_le x) (hx.trans_le hk)
  have hsize' := (size_patch (m''.emit close none) m.code.size).trans (size_emit m'' close none)
  refine ⟨hsize', ?_, ?_, ?_, ?_, ?_⟩
  · exact (show m.code.size ≤ m''.code.size + 1 by omega).trans_eq hsize'.symm
  · exact (hagrees.trans (hp.agrees.sub le_rfl (by omega))).trans (hothers _ _ (.inl le_rfl) hlt.le)
  · have hopen'' := (agrees_emit m'' close none).stepAt
      (hp.agrees.stepAt hopen (Nat.zero_le _) (by omega)) (Nat.zero_le _) hlt
    refine (hpatch m.code.size).trans ?_
    rw [if_pos rfl, show (m''.emit close none).code[m.code.size]? = _ from hopen'']
    rfl
  · exact hmono _ _ _ _ (hothers _ _ (.inr (by simp [image])) le_rfl) (hsize ▸ hat)
  · exact (hpatch m''.code.size).trans ((if_neg hlt.ne).trans (stepAt_emit m'' close none))

end Lowering

/-- From any state in the scope `l` the code is read to its end, which is in the scope `l'`, and what it
stands for is placed between the two ends of the code made. -/
def Lowers (ps : List (List String)) (outer : List Layer) (done done' : List (List String)) (l l' : Layer)
    (code : List Instr → List Instr) (At : JumpCode → Nat → Nat → Prop) : Prop :=
  ∀ m, Lowering.Ready ps done outer l m → ∃ m', Lowering.Passes code m m' ∧
    Lowering.Ready ps done' outer l' m' ∧ At m'.image m.code.size m'.code.size

end Replay

open Replay Lowering

variable {ps done done' done'' : List (List String)} {consts : Constants} {outer : List Layer}
  {l l' l'' : Layer} {m m' : Lowering}

theorem Expr.lowers (hr : Ready ps done outer l m) {e : Expr} (hs : e.Scoped (l :: outer)) :
    ∃ code, Passes e.codeThen m { m with code } ∧
      e.At ⟨code, m.procedures⟩ ps (l :: outer) m.code.size code.size := by
  induction e generalizing m with
  | binary op left right line ihl ihr =>
    obtain ⟨code, hl, hlat⟩ := ihl hr hs.1
    obtain ⟨code', hr', hrat⟩ := ihr (hr.congr rfl rfl rfl : Ready ps done outer l { m with code }) hs.2
    have hop : Passes (⟨.oper op, line⟩ :: ·) { m with code := code' } _ := .emit rfl
    refine ⟨_, (hl.trans hr').trans hop, code.size, code'.size, ?_, ?_, ?_, Array.size_push _⟩
    · exact hlat.mono ((hr'.trans hop).agrees.sub (Nat.zero_le _) le_rfl)
    · exact hrat.mono (hop.agrees.sub (Nat.zero_le _) le_rfl)
    · exact stepAt_emit { m with code := code' } _ _
  | literal value line => exact ⟨_, .emit rfl, stepAt_emit m _ _, Array.size_push _⟩
  | ident name line =>
    obtain ⟨f, hf, hb⟩ := hs
    have hinstr : m.instr ⟨.load name, line⟩ =
        .ok (m.emit (.load (varRef ps (l :: outer) name)) (some line)) := by
      simp only [Lowering.instr, hr.var hf hb]
      rfl
    exact ⟨_, .emit hinstr, stepAt_emit m _ _, Array.size_push _⟩

namespace Replay

variable {At : JumpCode → Nat → Nat → Prop}

theorem Lowers.nil (h : ∀ J i, At J i i) :
    Lowers ps outer done done l l id At :=
  fun m hr => ⟨m, .nil m, hr, h _ _⟩

/-- Two parts one after the other; the first stays where it is when the second is read. -/
theorem Lowers.seq {code code' : List Instr → List Instr} {At' : JumpCode → Nat → Nat → Prop}
    (h : Lowers ps outer done done' l l' code At) (h' : Lowers ps outer done' done'' l' l'' code' At')
    (hmono : ∀ J J' i k, Agrees J J' i k → At J i k → At J' i k) :
    Lowers ps outer done done'' l l'' (fun rest => code (code' rest))
      (fun J i k => ∃ j, At J i j ∧ At' J j k) := by
  intro m hr
  obtain ⟨m1, hp, hr1, hat⟩ := h m hr
  obtain ⟨m2, hp', hr2, hat'⟩ := h' m1 hr1
  exact ⟨m2, hp.trans hp', hr2, m1.code.size,
    hmono _ _ _ _ (hp'.agrees.sub (Nat.zero_le _) le_rfl) hat, hat'⟩

theorem Lowers.imp {code : List Instr → List Instr} {At' : JumpCode → Nat → Nat → Prop}
    (h : Lowers ps outer done done' l l' code At) (himp : ∀ J i k, At J i k → At' J i k) :
    Lowers ps outer done done' l l' code At' := by
  intro m hr
  obtain ⟨m', hp, hr', hat⟩ := h m hr
  exact ⟨m', hp, hr', himp _ _ _ hat⟩

def OneStep (step : Step) (line : Nat) (J : JumpCode) (i k : Nat) : Prop :=
  J.StepAt i step (some line) ∧ k = i + 1

theorem OneStep.mono {step : Step} {line : Nat} (J J' : JumpCode) (i k : Nat) (ha : Agrees J J' i k)
    (h : OneStep step line J i k) : OneStep step line J' i k :=
  ⟨ha.stepAt h.1 le_rfl (by have := h.2; omega), h.2⟩

theorem Lowers.instr {i : Instr} {step : Step}
    (h : ∀ m, Ready ps done outer l m → m.instr i = .ok (m.emit step (some i.line))) :
    Lowers ps outer done done l l (i :: ·) (OneStep step i.line) :=
  fun m hr => ⟨_, .emit (h m hr), hr.congr rfl rfl rfl, stepAt_emit _ _ _, Array.size_push _⟩

theorem varRef_add (e : ScopeEntry) : varRef ps (l.add e :: outer) e.name = ⟨owner ps l.path, e.name⟩ := by
  simp [varRef, lookup_add]

theorem Lowers.declare {e : ScopeEntry} {i : Instr} (step : VarRef → Step) (he : e.isProcedure = false)
    (hi : ∀ m : Lowering, m.instr i = m.declare e.name i step) :
    Lowers ps outer done done l (l.add e) (i :: ·) (OneStep (step ⟨owner ps l.path, e.name⟩) i.line) := by
  intro m hr
  have hr' : Ready ps done outer (l.add e) { m with scopes := (l.add e).scopes outer } :=
    ⟨rfl, hr.numbers, hr.names, hr.seen.add fun h => by rw [he] at h; cases h⟩
  have hvar := hr'.var (by rw [lookup_add, if_pos rfl]) he i
  rw [varRef_add] at hvar
  have hinstr : m.instr i = .ok ({ m with scopes := (l.add e).scopes outer }.emit
      (step ⟨owner ps l.path, e.name⟩) (some i.line)) := by
    simp only [hi, Lowering.declare, hr.scopes, Layer.scopes_declare l outer he, hvar]
    rfl
  exact ⟨_, .emit hinstr, hr'.congr rfl rfl rfl, stepAt_emit _ _ _, Array.size_push _⟩

theorem Lowers.store {name : String} (line : Nat) (ha : Assignable (l :: outer) name) :
    Lowers ps outer done done l l (⟨.store name, line⟩ :: ·)
      (OneStep (.store (varRef ps (l :: outer) name)) line) :=
  .instr fun m hr => by simp only [Lowering.instr, hr.var_of_assignable ha]; rfl

end Replay

theorem Decl.lowers {d : Decl} (hk : consts.Match (l :: outer)) (hd : ∀ i ∈ d.init, i.Scoped (l :: outer)) :
    Lowers ps outer done done l (l.add (d.entry (l :: outer))) (d.codeThen consts)
      (fun J => d.At J (l :: outer) (owner ps l.path)) := by
  match d with
  | .var name none line => exact .declare (e := .var name) .declare rfl fun _ => rfl
  | .var name (some init) line =>
    have hassign : Assignable (l.add (.var name) :: outer) name := ⟨_, by rw [lookup_add]; exact if_pos rfl, rfl⟩
    have hstore : Lowers ps outer done done _ _ _ _ := .store line hassign
    have href : varRef ps (l.add (.var name) :: outer) name = ⟨owner ps l.path, name⟩ := varRef_add (.var name)
    rw [href] at hstore
    have hpush : Lowers ps outer done done (l.add (.var name)) _ (⟨.push (consts.value init), line⟩ :: ·) _ :=
      .instr fun _ _ => rfl
    have hdeclare : Lowers ps outer done done l _ (⟨.declare name, line⟩ :: ·) _ :=
      .declare (e := .var name) .declare rfl fun _ => rfl
    refine (hdeclare.seq (hpush.seq hstore OneStep.mono) OneStep.mono).imp ?_
    rintro J i k ⟨j, ⟨h1, rfl⟩, j', ⟨h2, rfl⟩, h3, rfl⟩
    rw [hk.value (hd init rfl)] at h2
    exact ⟨h1, h2, h3, rfl⟩
  | .const name init line =>
    have hcode : Decl.codeThen consts (.const name init line) =
        (⟨.const name (init.elim 0 (·.valueIn (l :: outer))), line⟩ :: ·) := by
      funext rest
      rw [Decl.codeThen, hk.constant init hd]
    rw [hcode]
    exact .declare (e := .const name _) (.const · _) rfl fun _ => rfl

theorem Decl.lowersAll {ds : List Decl} (hk : consts.Match (l :: outer)) (hd : Decl.ScopedAll outer l ds) :
    Lowers ps outer done done l (Decl.afterAll outer l ds) (Decl.codeAllThen consts ds)
      (fun J => Decl.AtAll J ps outer l ds) := by
  induction ds generalizing l consts with
  | nil => exact .nil fun _ _ => rfl
  | cons d ds ih =>
    obtain ⟨-, -, hi, hds⟩ := hd
    exact (Decl.lowers hk hi).seq (ih (hk.bind hi) hds) fun _ _ _ _ ha h => h.mono ha

namespace Replay

variable {name : String} {cond : Expr} {body : List Stmt} {code : List Instr → List Instr}

theorem Lowers.reads {names : List String} (line : Nat) (hs : ∀ name ∈ names, Assignable (l :: outer) name) :
    Lowers ps outer done done l l (names.map (fun name => ⟨.read name, line⟩) ++ ·)
      (fun J => ReadsAt J ps (l :: outer) line names) := by
  induction names with
  | nil => exact .nil fun _ _ => rfl
  | cons name names ih =>
    obtain ⟨hname, hnames⟩ := List.forall_mem_cons.mp hs
    have hread : Lowers ps outer done done l l (⟨.read name, line⟩ :: ·) _ :=
      .instr fun m hr => by simp only [Lowering.instr, hr.var_of_assignable hname]; rfl
    refine (hread.seq (ih hnames) OneStep.mono).imp ?_
    rintro J i k ⟨j, ⟨h1, rfl⟩, h2⟩
    exact ⟨h1, h2⟩

theorem Lowers.expr {e : Expr} (hs : e.Scoped (l :: outer)) :
    Lowers ps outer done done l l e.codeThen (fun J => e.At J ps (l :: outer)) := by
  intro m hr
  obtain ⟨code, hp, hat⟩ := Expr.lowers hr hs
  exact ⟨_, hp, hr.congr rfl rfl rfl, hat⟩

theorem Lowers.writes {es : List Expr} (line : Nat) (hs : ∀ e ∈ es, e.Scoped (l :: outer)) :
    Lowers ps outer done done l l (Expr.writeAllThen line es)
      (fun J => Expr.WritesAt J ps (l :: outer) line es) := by
  induction es with
  | nil => exact .nil fun _ _ => rfl
  | cons e es ih =>
    obtain ⟨he, hes⟩ := List.forall_mem_cons.mp hs
    have hwrite : Lowers ps outer done done l l (⟨.write, line⟩ :: ·) _ := .instr fun _ _ => rfl
    refine ((Lowers.expr he).seq (hwrite.seq (ih hes) OneStep.mono) fun _ _ _ _ ha h => h.mono ha).imp ?_
    rintro J i k ⟨j, h1, j', ⟨h2, rfl⟩, h3⟩
    exact ⟨j, h1, h2, h3⟩

theorem Lowers.assign {value : Expr} (line : Nat) (ha : Assignable (l :: outer) name)
    (hv : value.Scoped (l :: outer)) :
    Lowers ps outer done done l l (fun rest => value.codeThen (⟨.store name, line⟩ :: rest))
      (fun J i k => ∃ j, value.At J ps (l :: outer) i j ∧
        J.StepAt j (.store (varRef ps (l :: outer) name)) (some line) ∧ k = j + 1) :=
  (Lowers.expr hv).seq (.store line ha) fun _ _ _ _ ha h => h.mono ha

theorem Lowers.whileDo (line : Nat) (hc : cond.Scoped (l :: outer))
    (hb : Lowers ps outer done done' l l' (Stmt.codeAllThen consts body) (fun J => Stmt.AtAll J ps outer l body)) :
    Lowers ps outer done done' l l' (Stmt.codeThen consts (.whileDo cond body line))
      (fun J => (Stmt.whileDo cond body line).At J ps outer l) := by
  intro m hr
  let m1 := m.startWhile ⟨.whileMark, line⟩
  obtain ⟨code, hp2, hat2⟩ := Expr.lowers (hr.congr rfl rfl rfl : Ready ps done outer l m1) hc
  let m2 := { m1 with code }
  let m3 : Lowering := { m2.emit (.jumpIfFalse 0) (some line) with
    markers := ⟨.whileLoop m.code.size (some code.size), "WHILE", line⟩ :: m.markers }
  obtain ⟨m4, hp4, hr4, hat4⟩ := hb m3 (hr.congr rfl rfl rfl)
  let m5 : Lowering := { (m4.emit (.jump m.code.size) none).patch code.size with markers := m.markers }
  have h3 : m2.instr ⟨.doMark, line⟩ = .ok m3 := rfl
  have h5 : m4.instr ⟨.endWhile, line⟩ = .ok m5 := by
    simp only [Lowering.instr, Lowering.endWhile, hp4.markers]
    rfl
  obtain ⟨hsize, hle, hagrees, hfirst, hinner, hlast⟩ : Enclosed m2.image m5.image (.jumpIfFalse 0)
      (.jump m.code.size) _ (fun J => Stmt.AtAll J ps outer l body) _ :=
    hp4.enclose (m := m2) (fun _ _ _ _ ha h => (Stmt.AtAll.mono h).2 ha) hat4 (Array.size_push _)
      (agrees_emit m2 _ _) (stepAt_emit m2 _ _)
  have hlt2 : m.code.size < code.size := hat2.lt
  refine ⟨m5, ⟨fun rest => ?_, rfl, hlt2.le.trans hle, hp2.agrees.trans (hagrees.sub le_rfl hlt2.le)⟩,
    hr4.congr rfl rfl rfl, code.size, m4.code.size, hat2.mono (hagrees.sub (Nat.zero_le _) le_rfl),
    ?_, hinner, hlast, hsize⟩
  · exact (foldlM_cons rfl _).trans <| (hp2.run _).trans <| (foldlM_cons h3 _).trans <|
      (hp4.run _).trans (foldlM_cons h5 rest)
  · rw [show m5.code.size = _ from hsize]
    exact hfirst

theorem Lowers.forTo {counter : String} {start bound : Expr} (line : Nat)
    (ha : Assignable (l :: outer) counter) (hs : start.Scoped (l :: outer)) (hbd : bound.Scoped (l :: outer))
    (hb : Lowers ps outer done done' l l' (Stmt.codeAllThen consts body) (fun J => Stmt.AtAll J ps outer l body)) :
    Lowers ps outer done done' l l' (Stmt.codeThen consts (.forTo counter start bound body line))
      (fun J => (Stmt.forTo counter start bound body line).At J ps outer l) := by
  intro m hr
  obtain ⟨code, hp, hat⟩ := Expr.lowers hr hs
  let ref := varRef ps (l :: outer) counter
  let m0 := { m with code }
  let m1 : Lowering := { m0.emit (.store ref) (some line) with
    markers := ⟨.forLoop (code.size + 1) ref none, "FOR_INIT", line⟩ :: m.markers }
  have h1 : m0.instr ⟨.forInit counter, line⟩ = .ok m1 := by
    have hvar := (hr.congr rfl rfl rfl : Ready ps done outer l m0).var_of_assignable ha ⟨.forInit counter, line⟩
    simp only [Lowering.instr, Lowering.startFor, hvar]
    simp only [bind, Except.bind, size_emit]
    rfl
  have h01 : Agrees m0.image m1.image 0 code.size := agrees_emit m0 _ _
  have hsize1 : m1.code.size = code.size + 1 := size_emit m0 _ _
  obtain ⟨code', hp2, hat2⟩ := Expr.lowers (hr.congr rfl rfl rfl : Ready ps done outer l m1) hbd
  let m2 := { m1 with code := code' }
  -- the bound stands inside the loop: its code is read with the counter stored and the marker open
  let m3 : Lowering := { m2.emit (.forTest ref 0) (some line) with
    markers := ⟨.forLoop (code.size + 1) ref (some code'.size), "FOR_INIT", line⟩ :: m.markers }
  obtain ⟨m4, hp4, hr4, hat4⟩ := hb m3 (hr.congr rfl rfl rfl)
  let m5 : Lowering := { (m4.emit (.forStep ref (code.size + 1)) none).patch code'.size with markers := m.markers }
  have h3 : m2.instr ⟨.forTo counter, line⟩ = .ok m3 := rfl
  have h5 : m4.instr ⟨.endFor counter, line⟩ = .ok m5 := by
    simp only [Lowering.instr, Lowering.endFor, hp4.markers]
    rfl
  obtain ⟨hsize, hle, hagrees, hfirst, hinner, hlast⟩ : Enclosed m2.image m5.image (.forTest ref 0)
      (.forStep ref (code.size + 1)) _ (fun J => Stmt.AtAll J ps outer l body) _ :=
    hp4.enclose (m := m2) (fun _ _ _ _ ha h => (Stmt.AtAll.mono h).2 ha) hat4 (Array.size_push _)
      (agrees_emit m2 _ _) (stepAt_emit m2 _ _)
  have hlt : m.code.size < code.size := hat.lt
  have hlt2 : code.size + 1 < code'.size := hsize1 ▸ hat2.lt
  have h15 : Agrees m1.image m5.image 0 (code.size + 1) :=
    (hsize1 ▸ hp2.agrees).trans (hagrees.sub le_rfl hlt2.le)
  have h05 : Agrees m0.image m5.image 0 code.size := h01.trans (h15.sub le_rfl (Nat.le_succ _))
  refine ⟨m5, ⟨fun rest => ?_, rfl, ?_, hp.agrees.trans (h05.sub le_rfl hlt.le)⟩,
    hr4.congr rfl rfl rfl, code.size, code'.size, m4.code.size, hat.mono (h05.sub (Nat.zero_le _) le_rfl),
    h15.stepAt (stepAt_emit m0 _ _) (Nat.zero_le _) (Nat.lt_succ_self _), ?_, ?_, hinner, hlast, hsize⟩
  · exact (hp.run _).trans <| (foldlM_cons h1 _).trans <| (hp2.run _).trans <| (foldlM_cons h3 _).trans <|
      (hp4.run _).trans (foldlM_cons h5 rest)
  · exact (show m.code.size ≤ code'.size by omega).trans hle
  · rw [hsize1] at hat2
    exact hat2.mono (hagrees.sub (Nat.zero_le _) le_rfl)
  · rw [show m5.code.size = _ from hsize]
    exact hfirst

/-- A new procedure gets the next number. -/
theorem Lowering.Ready.startProcedure (body : Block) (hps : Distinct ps)
    (hr : Ready ps done outer l m) (hp : done ++ [l.path ++ [name]] <+: ps) (i : Instr) :
    Ready ps (done ++ [l.path ++ [name]]) (l.add (.procedure name body) :: outer) (l.inside name)
      (m.startProcedure name i) ∧
      (m.startProcedure name i).image.EntryAt ps (l.path ++ [name]) (m.code.size + 1) := by
  have hpath : m.scopes.path = l.path := by rw [hr.scopes]; rfl
  obtain ⟨more, hp⟩ := hp
  rw [List.append_assoc, List.singleton_append] at hp
  have hmem : l.path ++ [name] ∈ ps := hp ▸ List.mem_append_right _ List.mem_cons_self
  have hnew : l.path ++ [name] ∉ done := fun h =>
    (List.nodup_append.mp (hp ▸ hps.nodup)).2.2 _ h _ List.mem_cons_self rfl
  have hidx : ps.idxOf (l.path ++ [name]) = done.length := by
    rw [← hp, List.idxOf_append, if_neg hnew, List.idxOf_cons_self, Nat.zero_add]
  have hseen : Seen (done ++ [l.path ++ [name]]) (l :: outer) :=
    hr.seen.mono fun _ h => List.mem_append_left _ h
  refine ⟨⟨?_, ?_, ?_, ?_⟩, ?_⟩
  · simp only [Lowering.startProcedure, Lowering.emit, hr.scopes]
    exact Layer.scopes_enter l outer name body
  · intro path hmem'
    simp only [Lowering.startProcedure, Lowering.emit, Scopes.enter, Scopes.path, List.lookup_cons]
    rw [show m.scopes.inner.path = l.path from hpath]
    rcases List.mem_append.mp hmem' with hd | hd
    · have hne : path ≠ l.path ++ [name] := fun h => hnew (h ▸ hd)
      have hpath' : path ∈ ps := hp ▸ List.mem_append_left _ hd
      rw [beq_eq_false_iff_ne.mpr (hps.dotted_ne hpath' hmem hne)]
      exact hr.numbers path hd
    · rw [List.mem_singleton.mp hd, beq_self_eq_true, hidx, hr.count]
  · simp [Lowering.startProcedure, Lowering.emit, hr.names, Scopes.enter, Scopes.path, ← hpath]
  · exact (hseen.add fun _ => by simp [ScopeEntry.name]).inside (by simp)
  · refine ⟨hmem, dotted (m.scopes.enter name).path, ?_⟩
    rw [hidx, ← hr.count]
    simp [Lowering.startProcedure, Lowering.emit, Lowering.image]

theorem Lowers.procedure {body : Block} (line : Nat) (hps : Distinct ps)
    (hp : done ++ [l.path ++ [name]] <+: ps)
    (hb : Lowers ps (l.add (.procedure name body) :: outer) (done ++ [l.path ++ [name]]) done'
      (l.inside name) l' (body.codeThen consts)
      (fun J => body.At J ps (l.add (.procedure name body) :: outer) (l.inside name))) :
    Lowers ps outer done done' l (l.add (.procedure name body))
      (Stmt.codeThen consts (.procedure name body line))
      (fun J => (Stmt.procedure name body line).At J ps outer l) := by
  intro m hr
  let m1 := m.startProcedure name ⟨.procedureStart name, line⟩
  obtain ⟨hr1, hentry⟩ := hr.startProcedure body hps hp ⟨.procedureStart name, line⟩
  obtain ⟨m2, hp2, hr2, hat2⟩ := hb m1 hr1
  let m3 : Lowering := { (m2.emit .leave none).patch m.code.size with
    markers := m.markers, scopes := m2.scopes.leave }
  have h3 : m2.instr ⟨.procedureEnd name, line⟩ = .ok m3 := by
    simp only [Lowering.instr, Lowering.endProcedure, hp2.markers]
    rfl
  have h01 : Agrees m.image m1.image 0 m.code.size := by
    refine ⟨(agrees_emit m (.jump 0) none).code, fun n q hq => ?_⟩
    have hlt := (Array.getElem?_eq_some_iff.mp hq).1
    exact (Array.getElem?_push.trans (if_neg hlt.ne)).trans hq
  obtain ⟨hsize, hle, hagrees, hfirst, hinner, hlast⟩ : Enclosed m.image m3.image (.jump 0) .leave none
      (fun J => body.At J ps (l.add (.procedure name body) :: outer) (l.inside name)) _ :=
    hp2.enclose (fun _ _ _ _ ha h => (Block.At.mono h).2 ha) hat2 (size_emit m _ _) h01
      (stepAt_emit m (.jump 0) none)
  have h13 : Agrees m1.image m3.image 0 0 := ⟨fun _ _ h => by omega, fun n q hq => hp2.agrees.procedures n q hq⟩
  refine ⟨m3, ⟨fun rest => ?_, rfl, hle, hagrees⟩, ⟨?_, hr2.numbers, hr2.names, fun x hx => ?_⟩,
    m2.code.size, ?_, h13.entryAt hentry, hinner, hlast, hsize⟩
  · exact (foldlM_cons rfl _).trans <| (hp2.run _).trans (foldlM_cons h3 rest)
  · exact (congrArg Scopes.leave hr2.scopes).trans (Layer.scopes_leave _ _ _)
  · exact hr2.seen x (List.mem_cons_of_mem _ hx)
  · rw [show m3.code.size = _ from hsize]
    exact hfirst

/-- A guarded branch of an `IF` is open: its pending jump and the exits of the earlier branches stand in
the code. -/
structure Branching (m : Lowering) (pending : Nat) (exits : List Nat) (markers : Markers Frame) : Prop where
  markers : ∃ marker line, m.markers = ⟨.branch pending exits, marker, line⟩ :: markers
  pending_lt : pending < m.code.size
  exits_lt : ∀ x ∈ exits, x < m.code.size
  fresh : pending ∉ exits

/-- Reading `code` closes the `IF`: the pending jump goes to `next` and the exits to the end. -/
structure Closed (code : List Instr → List Instr) (markers : Markers Frame) (m m' : Lowering)
    (pending next : Nat) (exits : List Nat) : Prop where
  run : ∀ rest, (code rest).foldlM Lowering.instr m = rest.foldlM Lowering.instr m'
  markers : m'.markers = markers
  size : m.code.size ≤ m'.code.size
  procedures : ∀ (n : Nat) p, m.procedures[n]? = some p → m'.procedures[n]? = some p
  patched : m'.code[pending]? = m.code[pending]?.map (retarget next)
  left : ∀ x ∈ exits, m'.code[x]? = m.code[x]?.map (retarget m'.code.size)
  others : ∀ x < m.code.size, x ≠ pending → x ∉ exits → m'.code[x]? = m.code[x]?

/-- In any open branch the code is read to the end of the `IF`; `At` places what is left of it. -/
def Closes (ps : List (List String)) (outer : List Layer) (done done' : List (List String)) (l l' : Layer)
    (code : List Instr → List Instr) (At : JumpCode → Nat → Nat → Nat → Prop) : Prop :=
  ∀ m pending exits markers, Ready ps done outer l m → Branching m pending exits markers →
    ∃ m' next, Closed code markers m m' pending next exits ∧ Ready ps done' outer l' m' ∧
      At m'.image m'.code.size m.code.size next

theorem Closes.endIf (line : Nat) :
    Closes ps outer done done l l (⟨.endIf, line⟩ :: ·)
      (fun J exit => Stmt.LastAt J ps outer l exit none) := by
  intro m pending exits markers hr hb
  obtain ⟨marker, ln, hm⟩ := hb.markers
  let m1 : Lowering := { m with code := (m.patchAll (pending :: exits)).code, markers }
  have h1 : m.instr ⟨.endIf, line⟩ = .ok m1 := by
    simp only [Lowering.instr, Lowering.endIf, hm]
    simp only [Markers.pop, Frame.branch?, bind, Except.bind, pure, Except.pure, Option.toList_some,
      List.singleton_append]
    rw [patchAll_eq]
  have hsize : m1.code.size = m.code.size := size_patchAll _ _
  have hcode := getElem?_patchAll m (pending :: exits)
  refine ⟨m1, m.code.size, ⟨foldlM_cons h1, rfl, hsize.ge, fun _ _ h => h, ?_, fun x hx => ?_, ?_⟩,
    hr.congr rfl rfl rfl, rfl, hsize⟩
  · exact (hcode pending).trans (if_pos List.mem_cons_self)
  · rw [hsize]
    exact (hcode x).trans (if_pos (List.mem_cons_of_mem _ hx))
  · intro x hx hne hnot
    exact (hcode x).trans (if_neg (by simp [hne, hnot]))

/-- A branch ends with a jump out of the `IF`, so the pending jump goes behind that; the new jump is one
more exit. -/
theorem Closed.of_exit {markers : Markers Frame} {pending : Nat}
    {exits : List Nat} (m1 m' : Lowering) (hb : Branching m pending exits markers)
    (hrun : ∀ rest, (code rest).foldlM Lowering.instr m = rest.foldlM Lowering.instr m')
    (hmarkers : m'.markers = markers) (hsize : m.code.size ≤ m'.code.size)
    (hproc : ∀ (n : Nat) p, m.procedures[n]? = some p → m'.procedures[n]? = some p)
    (h1 : ∀ x ≤ m.code.size, m1.code[x]? = ((m.emit (.jump 0) none).patch pending).code[x]?)
    (hleft : ∀ x ∈ m.code.size :: exits, m'.code[x]? = m1.code[x]?.map (retarget m'.code.size))
    (hothers : ∀ x < m.code.size, x ∉ exits → m'.code[x]? = m1.code[x]?) :
    Closed code markers m m' pending (m.code.size + 1) exits ∧
      m'.image.StepAt m.code.size (.jump m'.code.size) none := by
  have hp := hb.pending_lt
  have hbelow : ∀ x < m.code.size, m1.code[x]? =
      if pending = x then m.code[x]?.map (retarget (m.code.size + 1)) else m.code[x]? := by
    intro x hx
    rw [h1 x hx.le, getElem?_patch, size_emit, getElem?_emit, if_neg hx.ne]
  refine ⟨⟨hrun, hmarkers, hsize, hproc, ?_, fun x hx => ?_, fun x hx hne hnot => ?_⟩, ?_⟩
  · rw [hothers pending hp hb.fresh, hbelow pending hp, if_pos rfl]
  · have hne : pending ≠ x := fun h => hb.fresh (h ▸ hx)
    rw [hleft x (List.mem_cons_of_mem _ hx), hbelow x (hb.exits_lt x hx), if_neg hne]
  · rw [hothers x hx hnot, hbelow x hx, if_neg (Ne.symm hne)]
  · refine (hleft m.code.size List.mem_cons_self).trans ?_
    rw [h1 _ le_rfl, getElem?_patch, if_neg hp.ne, getElem?_emit, if_pos rfl]
    rfl

theorem Closes.elseBranch {other : List Stmt} (line : Nat)
    (ho : Lowers ps outer done done' l l' (Stmt.codeAllThen consts other)
      (fun J => Stmt.AtAll J ps outer l other)) :
    Closes ps outer done done' l l'
      (fun rest => ⟨.elseMark, line⟩ :: Stmt.codeAllThen consts other (⟨.endIf, line⟩ :: rest))
      (fun J exit => Stmt.LastAt J ps outer l exit (some other)) := by
  intro m pending exits markers hr hb
  obtain ⟨marker, ln, hm⟩ := hb.markers
  let m1 : Lowering := { (m.emit (.jump 0) none).patch pending with
    markers := ⟨.lastBranch (m.code.size :: exits), marker, ln⟩ :: markers }
  have h1 : m.instr ⟨.elseMark, line⟩ = .ok m1 := by
    simp only [Lowering.instr, Lowering.elseBranch, Lowering.openBranch, hm]
    simp only [Markers.top, Frame.branch?, bind, Except.bind, pure, Except.pure]
    simp only [m1, Lowering.patch, Lowering.emit, hm, Markers.replace]
  have hsize1 : m1.code.size = m.code.size + 1 := (size_patch ..).trans (size_emit ..)
  obtain ⟨m2, hp2, hr2, hat2⟩ := ho m1 (hr.congr rfl rfl rfl)
  let m3 : Lowering := { m2 with code := (m2.patchAll (m.code.size :: exits)).code, markers }
  have h3 : m2.instr ⟨.endIf, line⟩ = .ok m3 := by
    simp only [Lowering.instr, Lowering.endIf, hp2.markers, m1]
    simp only [Markers.pop, Frame.branch?, bind, Except.bind, pure, Except.pure, Option.toList_none,
      List.nil_append]
    rw [patchAll_eq]
  have hsize2 := hp2.size
  have hsize3 : m3.code.size = m2.code.size := size_patchAll _ _
  have hcode := getElem?_patchAll m2 (m.code.size :: exits)
  have hexits : ∀ x ∈ m.code.size :: exits, x ≤ m.code.size :=
    List.forall_mem_cons.mpr ⟨le_rfl, fun x hx => (hb.exits_lt x hx).le⟩
  obtain ⟨hclosed, hexit⟩ := Closed.of_exit m2 m3 hb
      (fun rest => (foldlM_cons h1 _).trans ((hp2.run _).trans (foldlM_cons h3 rest))) rfl
      (by omega) hp2.agrees.procedures
      (fun x hx => hp2.agrees.code x (Nat.zero_le x) (by omega))
      (fun x hx => hsize3 ▸ (hcode x).trans (if_pos hx))
      (fun x hx hnot => (hcode x).trans (if_neg (by simp [hx.ne, hnot])))
  have h23 : Agrees m2.image m3.image (m.code.size + 1) m2.code.size := by
    refine ⟨fun x hx _ => (hcode x).trans (if_neg fun h => ?_), fun _ _ h => h⟩
    have := hexits x h
    omega
  refine ⟨m3, _, hclosed, hr2.congr rfl rfl rfl, hexit, rfl, ?_⟩
  rw [hsize1] at hat2
  rw [hsize3]
  exact (Stmt.AtAll.mono hat2).2 h23

/-- `m'` has read an `ELSEIF` with the guard that `gcode` has behind the code of `m`. The guard has moved by
one place: the jump out of the branch before it now stands in front. -/
structure GuardMoved (m m' : Lowering) (gcode : Array Exec) (pending line : Nat) : Prop where
  scopes : m'.scopes = m.scopes
  numbers : m'.numbers = m.numbers
  procedures : m'.procedures = m.procedures
  size : m'.code.size = gcode.size + 2
  before : ∀ x ≤ m.code.size, m'.code[x]? = ((m.emit (.jump 0) none).patch pending).code[x]?
  guard : ∀ x, m.code.size ≤ x → x < gcode.size → m'.code[x + 1]? = gcode[x]?
  test : m'.code[gcode.size + 1]? = some ⟨.jumpIfFalse 0, some line⟩

theorem shrink_of_agrees {code gcode : Array Exec} (hlt : code.size < gcode.size)
    (hcode : ∀ x < code.size, gcode[x]? = code[x]?) : gcode.shrink code.size = code := by
  refine Array.ext_getElem? fun x => ?_
  rw [Array.shrink_eq_take, Array.take_eq_extract, Array.getElem?_extract, Nat.zero_add, Nat.min_eq_left hlt.le]
  split
  · next hx => exact hcode x hx
  · next hx => exact (Array.getElem?_eq_none (by omega)).symm

theorem GuardMoved.of_instr {gcode : Array Exec} {pending ln : Nat} {exits : List Nat}
    {marker : String} {markers : Markers Frame} (hm : m.markers = ⟨.branch pending exits, marker, ln⟩ :: markers)
    (hlt : m.code.size < gcode.size) (hcode : ∀ x < m.code.size, gcode[x]? = m.code[x]?)
    (hstart : guardStart gcode 1 gcode.size = some m.code.size) (line : Nat) :
    ∃ m', ({ m with code := gcode } : Lowering).instr ⟨.elseIf, line⟩ = .ok m' ∧
      m'.markers = ⟨.branch (gcode.size + 1) (m.code.size :: exits), marker, ln⟩ :: markers ∧
      GuardMoved m m' gcode pending line := by
  let moved := ((m.emit (.jump 0) none).patch pending).code ++ gcode.extract m.code.size
  have hsize : moved.size = gcode.size + 1 := by
    rw [Array.size_append, size_patch, size_emit, Array.size_extract]
    omega
  refine ⟨{ (m.emit (.jump 0) none).patch pending with
    code := moved.push ⟨.jumpIfFalse 0, some line⟩
    markers := ⟨.branch (gcode.size + 1) (m.code.size :: exits), marker, ln⟩ :: markers }, ?_, rfl, rfl, rfl, rfl,
    (Array.size_push _).trans (congrArg (· + 1) hsize), fun x hx => ?_, fun x hx hx' => ?_,
    Array.getElem?_push.trans (if_pos hsize.symm)⟩
  · simp only [Lowering.instr, Lowering.elseIf, hstart, Lowering.openBranch, hm]
    simp only [Markers.top, Frame.branch?, bind, Except.bind, pure, Except.pure, shrink_of_agrees hlt hcode]
    simp only [← hsize, moved, Lowering.emit, Lowering.patch, Markers.replace, hm]
  · refine Array.getElem?_push.trans ((if_neg (by omega)).trans (Array.getElem?_append_left ?_))
    rw [size_patch, size_emit]
    omega
  · refine Array.getElem?_push.trans ((if_neg (by omega)).trans ?_)
    rw [Array.getElem?_append_right (by rw [size_patch, size_emit]; omega), size_patch, size_emit,
      Array.getElem?_extract, if_pos (by omega)]
    congr 1
    omega

theorem Closes.elseIf {es : List ElseIf}
    {last : JumpCode → Nat → Layer → Nat → Nat → Prop} (line : Nat) (hc : cond.Scoped (l :: outer))
    (hb : Lowers ps outer done done' l (Stmt.afterAll l body) (Stmt.codeAllThen consts body)
      (fun J => Stmt.AtAll J ps outer l body))
    (ho : Closes ps outer done' done'' (Stmt.afterAll l body) l'' code
      (fun J exit => ElseIf.AtAll J ps outer (Stmt.afterAll l body) exit es (last J exit))) :
    Closes ps outer done done'' l l''
      (fun rest => cond.codeThen (⟨.elseIf, line⟩ :: Stmt.codeAllThen consts body (code rest)))
      (fun J exit => ElseIf.AtAll J ps outer l exit (⟨cond, body, line⟩ :: es) (last J exit)) := by
  intro m pending exits markers hr hbr
  obtain ⟨marker, ln, hm⟩ := hbr.markers
  obtain ⟨gcode, hp1, hat1⟩ := Expr.lowers hr hc
  have hlt : m.code.size < gcode.size := hat1.lt
  have hstart : guardStart gcode 1 gcode.size = some m.code.size := (hat1.guardStart 0).trans (by simp [guardStart])
  obtain ⟨m2, h2, hm2, hg⟩ :=
    GuardMoved.of_instr hm hlt (fun x hx => hp1.agrees.code x (Nat.zero_le x) hx) hstart line
  have hsize2 := hg.size
  obtain ⟨m3, hp3, hr3, hat3⟩ := hb m2 (hr.congr hg.scopes hg.numbers hg.procedures)
  have hsize3 := hp3.size
  have hprocs : ∀ (n : Nat) p, m.procedures[n]? = some p → m3.procedures[n]? = some p := by
    rw [← hg.procedures]
    exact hp3.agrees.procedures
  have hexits : ∀ x ∈ m.code.size :: exits, x ≤ m.code.size :=
    List.forall_mem_cons.mpr ⟨le_rfl, fun x hx => (hbr.exits_lt x hx).le⟩
  -- the test of the moved guard is the pending jump of the branch that it opens
  have hbr3 : Branching m3 (gcode.size + 1) (m.code.size :: exits) markers :=
    ⟨⟨marker, ln, hp3.markers.trans hm2⟩, by omega, fun x hx => by have := hexits x hx; omega,
      fun h => by have := hexits _ h; omega⟩
  obtain ⟨m4, next', hc4, hr4, hat4⟩ := ho m3 _ _ _ hr3 hbr3
  have hsize4 := hc4.size
  have hup : ∀ x, m.code.size < x → x < m3.code.size → x ≠ gcode.size + 1 → m4.code[x]? = m3.code[x]? :=
    fun x hx hx' hne => hc4.others x hx' hne fun h => by have := hexits x h; omega
  obtain ⟨hclosed, hexit⟩ := Closed.of_exit m3 m4 hbr
      (fun rest => (hp1.run _).trans ((foldlM_cons h2 _).trans ((hp3.run _).trans (hc4.run rest)))) hc4.markers
      (by omega) (fun n p h => hc4.procedures n p (hprocs n p h))
      (fun x hx => (hp3.agrees.code x (Nat.zero_le x) (by omega)).trans (hg.before x hx))
      hc4.left
      (fun x hx hnot => hc4.others x (by omega) (by omega) (by simp [hx.ne, hnot]))
  refine ⟨m4, _, hclosed, hr4, hexit, rfl, gcode.size + 1, m3.code.size, next', ?_, ?_, ?_, hat4⟩
  · refine hat1.shift 1 fun x hx hx' => ?_
    refine (hup (x + 1) (by omega) (by omega) (by omega)).trans ?_
    exact (hp3.agrees.code (x + 1) (Nat.zero_le _) (by omega)).trans (hg.guard x hx hx')
  · refine hc4.patched.trans ?_
    rw [show m3.code[gcode.size + 1]? = _ from
      (hp3.agrees.code _ (Nat.zero_le _) (by omega)).trans hg.test]
    rfl
  · rw [hsize2] at hat3
    exact (Stmt.AtAll.mono hat3).2
      ⟨fun x hx hx' => hup x (by omega) hx' (by omega), hc4.procedures⟩

theorem Lowers.ifElse {es : List ElseIf} {otherwise : Option (List Stmt)}
    (line : Nat) (hc : cond.Scoped (l :: outer))
    (hb : Lowers ps outer done done' l (Stmt.afterAll l body) (Stmt.codeAllThen consts body)
      (fun J => Stmt.AtAll J ps outer l body))
    (ho : Closes ps outer done' done'' (Stmt.afterAll l body) l'' code
      (fun J exit => ElseIf.AtAll J ps outer (Stmt.afterAll l body) exit es
        (fun l b next => Stmt.LastAt J ps outer l exit otherwise b next))) :
    Lowers ps outer done done'' l l''
      (fun rest => cond.codeThen (⟨.ifMark, line⟩ :: Stmt.codeAllThen consts body (code rest)))
      (fun J => (Stmt.ifElse cond body es otherwise line).At J ps outer l) := by
  intro m hr
  obtain ⟨gcode, hp1, hat1⟩ := Expr.lowers hr hc
  let m1 : Lowering := { m with code := gcode }
  let m2 := m1.startIf ⟨.ifMark, line⟩
  have hlt : m.code.size < gcode.size := hat1.lt
  have hsize2 : m2.code.size = gcode.size + 1 := size_emit m1 _ _
  have h12 : Agrees m1.image m2.image 0 gcode.size := agrees_emit m1 _ _
  obtain ⟨m3, hp3, hr3, hat3⟩ := hb m2 (hr.congr rfl rfl rfl)
  have hsize3 := hp3.size
  obtain ⟨m4, next, hc4, hr4, hat4⟩ := ho m3 gcode.size [] m.markers hr3
    ⟨⟨_, _, hp3.markers⟩, by omega, by simp, by simp⟩
  have hsize4 := hc4.size
  have h34 : ∀ i k, k ≤ gcode.size ∨ gcode.size < i → k ≤ m3.code.size → Agrees m3.image m4.image i k :=
    fun i k hne hk => ⟨fun x hi hx => hc4.others x (by omega) (by omega) (by simp), hc4.procedures⟩
  have h14 : Agrees m1.image m4.image 0 gcode.size :=
    (h12.trans (hp3.agrees.sub le_rfl (by omega))).trans (h34 _ _ (.inl le_rfl) (by omega))
  refine ⟨m4, ⟨fun rest => ?_, hc4.markers, by omega, hp1.agrees.trans (h14.sub le_rfl hlt.le)⟩, hr4,
    gcode.size, m3.code.size, next, hat1.mono (h14.sub (Nat.zero_le _) le_rfl), ?_, ?_, hat4⟩
  · exact (hp1.run _).trans ((foldlM_cons rfl _).trans ((hp3.run _).trans (hc4.run rest)))
  · refine hc4.patched.trans ?_
    rw [show m3.code[gcode.size]? = _ from hp3.agrees.stepAt (stepAt_emit m1 _ _) (Nat.zero_le _) (by omega)]
    rfl
  · rw [hsize2] at hat3
    exact (Stmt.AtAll.mono hat3).2 (h34 _ _ (.inr (Nat.lt_succ_self _)) le_rfl)

end Replay

theorem Decl.procedurePaths_declaredAll (outer : List Layer) (l : Layer) (ds : List Decl) :
    procedurePaths (Decl.declaredAll outer l ds) = [] := by
  induction ds generalizing l with
  | nil => rfl
  | cons d ds ih => cases d <;> exact ih _

mutual

theorem Stmt.lowers {ps done : List (List String)} {consts : Constants} {outer : List Layer} {l : Layer}
    (hps : Distinct ps) (s : Stmt) (hs : s.Scoped outer l) (hk : consts.Match (l :: outer))
    (hp : done ++ procedurePaths (s.declared outer l) <+: ps) :
    Lowers ps outer done (done ++ procedurePaths (s.declared outer l)) l (s.after l) (s.codeThen consts)
      (fun J => s.At J ps outer l) := by
  match s with
  | .assign name value line =>
    rw [show procedurePaths _ = [] from rfl, List.append_nil]
    exact .assign line hs.1 hs.2
  | .ifElse cond body elseIfs (some other) line =>
    obtain ⟨hc, hb, he, ho⟩ := hs
    simp only [Stmt.declared, procedurePaths_append, ← List.append_assoc] at hp ⊢
    have hp' := (List.prefix_append _ _).trans hp
    exact .ifElse line hc (Stmt.lowersAll hps body hb hk ((List.prefix_append _ _).trans hp'))
      (ElseIf.closesAll hps elseIfs he (hk.afterAll body) hp' (.elseBranch line
        (Stmt.lowersAll hps other ho ((hk.afterAll body).afterElseIfs elseIfs) hp)))
  | .ifElse cond body elseIfs none line =>
    obtain ⟨hc, hb, he, -⟩ := hs
    simp only [Stmt.declared, procedurePaths_append, List.append_nil, ← List.append_assoc] at hp ⊢
    exact .ifElse line hc (Stmt.lowersAll hps body hb hk ((List.prefix_append _ _).trans hp))
      (ElseIf.closesAll hps elseIfs he (hk.afterAll body) hp (.endIf line))
  | .whileDo cond body line => exact .whileDo line hs.1 (Stmt.lowersAll hps body hs.2 hk hp)
  | .forTo counter start bound body line =>
    exact .forTo line hs.1 hs.2.1 hs.2.2.1 (Stmt.lowersAll hps body hs.2.2.2 hk hp)
  | .read names line =>
    rw [show procedurePaths _ = [] from rfl, List.append_nil]
    exact .reads line hs
  | .write values line =>
    rw [show procedurePaths _ = [] from rfl, List.append_nil]
    exact .writes line hs
  | .call name line =>
    rw [show procedurePaths _ = [] from rfl, List.append_nil]
    exact .instr fun m hr => hr.call hs _
  | .group body line => exact Stmt.lowersAll hps body hs hk hp
  | .procedure name body line =>
    have hpaths : procedurePaths ((Stmt.procedure name body line).declared outer l) = (l.path ++ [name]) ::
        procedurePaths (body.declared (l.add (.procedure name body) :: outer) (l.inside name)) := rfl
    rw [hpaths, List.append_cons] at hp ⊢
    exact .procedure line hps ((List.prefix_append _ _).trans hp)
      (Block.lowers hps body hs.2.2 ((hk.procedure name body).inside name) hp)

theorem Stmt.lowersAll {ps done : List (List String)} {consts : Constants} {outer : List Layer} {l : Layer}
    (hps : Distinct ps) (ss : List Stmt) (hs : Stmt.ScopedAll outer l ss) (hk : consts.Match (l :: outer))
    (hp : done ++ procedurePaths (Stmt.declaredAll outer l ss) <+: ps) :
    Lowers ps outer done (done ++ procedurePaths (Stmt.declaredAll outer l ss)) l (Stmt.afterAll l ss)
      (Stmt.codeAllThen consts ss) (fun J => Stmt.AtAll J ps outer l ss) := by
  match ss with
  | [] =>
    rw [show procedurePaths _ = [] from rfl, List.append_nil]
    exact .nil fun _ _ => rfl
  | s :: ss =>
    rw [Stmt.declaredAll, procedurePaths_append, ← List.append_assoc] at hp ⊢
    exact (Stmt.lowers hps s hs.1 hk ((List.prefix_append _ _).trans hp)).seq
      (Stmt.lowersAll hps ss hs.2 (hk.after s) hp) fun _ _ _ _ ha h => (Stmt.At.mono h).2 ha

theorem ElseIf.closesAll {ps done done' : List (List String)} {consts : Constants} {outer : List Layer}
    {l l' : Layer} {code : List Instr → List Instr} {last : JumpCode → Nat → Layer → Nat → Nat → Prop}
    (hps : Distinct ps) (es : List ElseIf) (hs : ElseIf.ScopedAll outer l es) (hk : consts.Match (l :: outer))
    (hp : done ++ procedurePaths (ElseIf.declaredAll outer l es) <+: ps)
    (hl : Closes ps outer (done ++ procedurePaths (ElseIf.declaredAll outer l es)) done' (ElseIf.afterAll l es) l'
      code (fun J exit => last J exit (ElseIf.afterAll l es))) :
    Closes ps outer done done' l l' (fun rest => ElseIf.codeAllThen consts es (code rest))
      (fun J exit => ElseIf.AtAll J ps outer l exit es (last J exit)) := by
  match es with
  | [] =>
    rw [show procedurePaths _ = [] from rfl, List.append_nil] at hl
    exact hl
  | ⟨cond, body, line⟩ :: others =>
    obtain ⟨hc, hb, ho⟩ := hs
    simp only [ElseIf.declaredAll, procedurePaths_append, ← List.append_assoc] at hp hl
    exact .elseIf line hc (Stmt.lowersAll hps body hb hk ((List.prefix_append _ _).trans hp))
      (ElseIf.closesAll hps others ho (hk.afterAll body) hp hl)

theorem Block.lowers {ps done : List (List String)} {consts : Constants} {outer : List Layer} {l : Layer}
    (hps : Distinct ps) (b : Block) (hs : b.Scoped outer l) (hk : consts.Match (l :: outer))
    (hp : done ++ procedurePaths (b.declared outer l) <+: ps) :
    Lowers ps outer done (done ++ procedurePaths (b.declared outer l)) l (b.after outer l) (b.codeThen consts)
      (fun J => b.At J ps outer l) := by
  match b with
  | ⟨decls, some s, line⟩ =>
    simp only [Block.declared, procedurePaths_append, Decl.procedurePaths_declaredAll, List.nil_append] at hp ⊢
    exact (Decl.lowersAll hk hs.1).seq (Stmt.lowers hps s hs.2 (hk.bindAll hs.1) hp)
      fun _ _ _ _ ha h => h.mono ha
  | ⟨decls, none, line⟩ =>
    simp only [Block.declared, Decl.procedurePaths_declaredAll, List.append_nil]
    exact (Decl.lowersAll hk hs.1).imp fun J i k h => ⟨k, h, rfl⟩

end

theorem Block.lowersAll {ps done : List (List String)} {consts : Constants} {outer : List Layer} {l : Layer}
    (hps : Distinct ps) (bs : List Block) (hs : Block.ScopedAll outer l bs) (hk : consts.Match (l :: outer))
    (hp : done ++ procedurePaths (Block.declaredAll outer l bs) <+: ps) :
    ∃ l', Lowers ps outer done (done ++ procedurePaths (Block.declaredAll outer l bs)) l l'
      (Block.codeAllThen consts bs) (fun J => Block.AtAll J ps outer l bs) := by
  induction bs generalizing done l consts with
  | nil =>
    rw [show procedurePaths _ = [] from rfl, List.append_nil]
    exact ⟨l, .nil fun _ _ => rfl⟩
  | cons b bs ih =>
    rw [Block.declaredAll, procedurePaths_append, ← List.append_assoc] at hp ⊢
    obtain ⟨l', hrest⟩ := ih hs.2 (hk.block hs.1) hp
    exact ⟨l', (Block.lowers hps b hs.1 hk ((List.prefix_append _ _).trans hp)).seq hrest
      fun _ _ _ _ ha h => (Block.At.mono h).2 ha⟩

/-- A well-scoped program has jump code, its blocks stand in it from one end to the other, and its procedures
are numbered in the order of their declaration. -/
theorem Program.lowers_numbered {p : Program} (h : p.Scoped) :
    ∃ J, JumpCode.ofCode p.code = .ok J ∧
      Block.AtAll J (procedurePaths p.declared) [] .initial p.blocks 0 J.code.size ∧
      J.procedures.toList.map (·.name) = (procedurePaths p.declared).map dotted := by
  have hpaths : [] ++ procedurePaths p.declared <+: procedurePaths p.declared := List.prefix_refl _
  obtain ⟨l', hl⟩ := Block.lowersAll (p.procedurePaths_distinct h) p.blocks h .initial hpaths
  obtain ⟨m, hp, hr, hat⟩ := hl .initial ⟨rfl, by simp, rfl, .initial⟩
  refine ⟨m.image, ?_, hat, hr.names⟩
  rw [JumpCode.ofCode, Program.code, hp.run []]
  simp only [List.foldlM_nil, pure_bind, hp.markers]
  rfl

theorem Program.lowers {p : Program} (h : p.Scoped) :
    ∃ J, JumpCode.ofCode p.code = .ok J ∧
      Block.AtAll J (procedurePaths p.declared) [] .initial p.blocks 0 J.code.size := by
  obtain ⟨J, hJ, hat, -⟩ := p.lowers_numbered h
  exact ⟨J, hJ, hat⟩

end PLZero
