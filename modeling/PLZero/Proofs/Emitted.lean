import PLZero.Proofs.Declared
import PLZero.Proofs.ModuleWriting
import PLZero.Target

/-! Stack modules of well-scoped programs: making one succeeds, every part of the program stands in it as
code for that part alone, and every procedure is a function of it under its full name. -/

namespace PLZero

variable {name : String}

open StackModule

/-- The full name of what a name means, as one text. -/
def idOf (layers : List Layer) (name : String) : String :=
  qualify ((lookup layers name).elim [] (·.home.path)) name

def Expr.folded (layers : List Layer) : Expr → Folded
  | .binary op left right _ => .binary op (left.folded layers) (right.folded layers)
  | .literal value _ => .const value
  | .ident name _ => .name (idOf layers name)

/-- The code of a declaration; what has no initial value is not set. -/
def Decl.sets (layers : List Layer) (path : List String) : Decl → List Code
  | .var name (some init) _ => [.set (qualify path name) (.const (init.valueIn layers))]
  | _ => []

def Decl.setsAll (outer : List Layer) : Layer → List Decl → List Code
  | _, [] => []
  | l, d :: ds => d.sets (l :: outer) l.path ++ setsAll outer (l.add (d.entry (l :: outer))) ds

/-- The globals that a function saves: the variables of its own scope. -/
def Decl.saved (inProcedure : Bool) (path : List String) : Decl → List String
  | .var name _ _ => if inProcedure then [qualify path name] else []
  | .const .. => []

def Decl.savedAll (inProcedure : Bool) (path : List String) (ds : List Decl) : List String :=
  ds.flatMap (Decl.saved inProcedure path)

mutual

/-- The statement, in the scope `l` inside `outer`, stands as `codes` in a module with the functions `F`. -/
def Stmt.Emitted (F : List Function) (outer : List Layer) (l : Layer) : Stmt → List Code → Prop
  | .assign name value _, codes => codes = [.set (idOf (l :: outer) name) (value.folded (l :: outer))]
  | .ifElse cond body elseIfs otherwise _, codes => ∃ b o, Stmt.EmittedAll F outer l body b ∧
    ElseIf.EmittedAll F outer (Stmt.afterAll l body) elseIfs
      (fun l o => Stmt.LastEmitted F outer l otherwise o) o ∧
    codes = [.ifElse (cond.folded (l :: outer)) b o]
  | .whileDo cond body _, codes => ∃ n b, Stmt.EmittedAll F outer l body b ∧
    codes = [loopBlock n (.branchIfZero (.behind n) (cond.folded (l :: outer)) :: b)]
  | .forTo counter start bound body _, codes => ∃ n b, Stmt.EmittedAll F outer l body b ∧
    codes = [.set (idOf (l :: outer) counter) (start.folded (l :: outer)),
      loopBlock n (.branchUnlessBelow (.behind n) (idOf (l :: outer) counter) (bound.folded (l :: outer)) ::
        b ++ [.increment (idOf (l :: outer) counter)])]
  | .read names _, codes => codes = names.map fun name => .read (idOf (l :: outer) name)
  | .write values _, codes => codes = values.map fun e => .write (e.folded (l :: outer))
  | .call name _, codes => codes = [.call (idOf (l :: outer) name)]
  | .group body _, codes => Stmt.EmittedAll F outer l body codes
  | .procedure name body _, codes => codes = [] ∧
    ∃ b, body.Emitted F (l.add (.procedure name body) :: outer) (l.inside name) b ∧
      ⟨qualify l.path name, Decl.savedAll true (l.path ++ [name]) body.decls, b⟩ ∈ F

def Stmt.EmittedAll (F : List Function) (outer : List Layer) (l : Layer) : List Stmt → List Code → Prop
  | [], codes => codes = []
  | s :: ss, codes => ∃ a b, s.Emitted F outer l a ∧ Stmt.EmittedAll F outer (s.after l) ss b ∧ codes = a ++ b

def Stmt.LastEmitted (F : List Function) (outer : List Layer) (l : Layer) :
    Option (List Stmt) → Option (List Code) → Prop
  | none, o => o = none
  | some other, o => ∃ b, Stmt.EmittedAll F outer l other b ∧ o = some b

/-- Further branches are conditionals, each in the `else` of the one before it; `last` is in the `else` of
the last one. -/
def ElseIf.EmittedAll (F : List Function) (outer : List Layer) (l : Layer) :
    List ElseIf → (Layer → Option (List Code) → Prop) → Option (List Code) → Prop
  | [], last, o => last l o
  | ⟨cond, body, _⟩ :: others, last, o => ∃ b o', Stmt.EmittedAll F outer l body b ∧
    ElseIf.EmittedAll F outer (Stmt.afterAll l body) others last o' ∧
    o = some [.ifElse (cond.folded (l :: outer)) b o']

def Block.Emitted (F : List Function) (outer : List Layer) (l : Layer) : Block → List Code → Prop
  | ⟨decls, stmt, _⟩, codes => ∃ b, codes = Decl.setsAll outer l decls ++ b ∧
    match stmt with
    | some s => s.Emitted F outer (Decl.afterAll outer l decls) b
    | none => b = []

end

def Block.EmittedAll (F : List Function) (outer : List Layer) : Layer → List Block → List Code → Prop
  | _, [], codes => codes = []
  | l, b :: bs, codes =>
    ∃ c c', b.Emitted F outer l c ∧ EmittedAll F outer (b.after outer l) bs c' ∧ codes = c ++ c'

/-- Globals of the outermost scope are exported, but not under the name of the entry function. -/
def Declared.exported? (d : Declared) : Option String :=
  if !d.1.isEmpty || d.2.name == entryExport then none else some d.2.name

def Declared.global? (d : Declared) : Option Global :=
  match d.2 with
  | .var _ => some ⟨dotted d.full, d.exported?, none⟩
  | .const _ v => some ⟨dotted d.full, d.exported?, some v⟩
  | .procedure .. => none

/-- The identifier of the global of a declaration, with its first value. -/
def Declared.cell? (d : Declared) : Option (String × Int32) :=
  match d.2 with
  | .var _ => some (dotted d.full, 0)
  | .const _ v => some (dotted d.full, v)
  | .procedure .. => none

def Declared.saved (d : Declared) : List String :=
  match d.2 with
  | .procedure _ body => Decl.savedAll true d.full body.decls
  | _ => []

namespace StackModule

/-- From any state in the scope `l` the code is read to its end, which is in the scope `l'`; it adds the
globals and functions of what was declared in it, and code of which `P` holds in every module with its
functions. -/
def Emits (outer : List Layer) (l l' : Layer) (code : List Instr → List Instr) (ds : List Declared)
    (saved : List String) (P : List Function → List Code → Prop) : Prop :=
  ∀ w : Writer, w.scopes = l.scopes outer → ∃ functions codes loops,
    Writer.Reads code w (w.extend
      ⟨ds.filterMap Declared.global?, functions, saved, Code.editsAll codes⟩ w.markers
      (l'.scopes outer) loops) ∧
    (functions.map (·.id)).Perm ((procedurePaths ds).map dotted) ∧
    ∀ F, functions ⊆ F → P F codes

end StackModule

open Writer (Reads)

variable {consts : Constants} {outer : List Layer} {l l' l'' : Layer} {w : Writer}

theorem binding_scopes {f : Found} (hf : lookup (l :: outer) name = some f)
    (hb : f.entry.isProcedure = false) (i : Instr) :
    (l.scopes outer).binding name i = .ok (idOf (l :: outer) name) := by
  simp only [Scopes.binding, Layer.resolve_scopes hf hb, idOf, hf, Option.elim_some]

theorem Assignable.binding (h : Assignable (l :: outer) name) (i : Instr) :
    (l.scopes outer).binding name i = .ok (idOf (l :: outer) name) :=
  h.elim fun _ ⟨hf, he⟩ => binding_scopes hf (he ▸ rfl) i

theorem Callable.procedure (h : Callable (l :: outer) name) (i : Instr) :
    (l.scopes outer).procedure name i = .ok (idOf (l :: outer) name) := by
  obtain ⟨f, body, hf, he⟩ := h
  simp only [Scopes.procedure, Layer.resolveProcedure_scopes hf (he ▸ rfl), idOf, hf,
    Option.elim_some, qualify]

theorem Expr.reads {x : Expr} (w : Writer) (hw : w.scopes = l.scopes outer)
    (hx : x.Scoped (l :: outer)) :
    Reads x.codeThen w (w.push (exprText (x.folded (l :: outer)))) := by
  induction x generalizing w with
  | binary op left right line ihl ihr =>
    refine (ihl w hw hx.1).trans ((ihr (w.push _) (hw ▸ w.scopes_push _) hx.2).trans (.instr ?_))
    simp only [Writer.instr, Writer.pop_push, bind, Except.bind]
    rfl
  | literal value line => exact .instr rfl
  | ident name line =>
    obtain ⟨f, hf, hb⟩ := hx
    refine .instr ?_
    simp only [Writer.instr, hw, binding_scopes hf hb]
    rfl

namespace StackModule

variable {ds ds' : List Declared} {saved saved' : List String}
  {code code' : List Instr → List Instr} {P P' : List Function → List Code → Prop}
  {cond : Expr} {body : List Stmt}

theorem Emits.imp (h : Emits outer l l' code ds saved P) (himp : ∀ F codes, P F codes → P' F codes) :
    Emits outer l l' code ds saved P' := by
  intro w hw
  obtain ⟨functions, codes, loops, hr, hf, hp⟩ := h w hw
  exact ⟨functions, codes, loops, hr, hf, fun F hF => himp F _ (hp F hF)⟩

theorem Emits.seq (h : Emits outer l l' code ds saved P)
    (h' : Emits outer l' l'' code' ds' saved' P') :
    Emits outer l l'' (fun rest => code (code' rest)) (ds ++ ds') (saved ++ saved')
      (fun F codes => ∃ a b, P F a ∧ P' F b ∧ codes = a ++ b) := by
  intro w hw
  obtain ⟨fs, codes, loops, hr, hf, hp⟩ := h w hw
  obtain ⟨fs', codes', loops', hr', hf', hp'⟩ := h' (w.extend _ w.markers (l'.scopes outer) loops) rfl
  refine ⟨fs ++ fs', codes ++ codes', loops', ?_, ?_, fun F hF => ?_⟩
  · rw [Writer.extend_extend] at hr'
    rw [List.filterMap_append, Code.editsAll_append]
    exact hr.trans hr'
  · rw [List.map_append, procedurePaths_append, List.map_append]
    exact hf.append hf'
  · obtain ⟨hF, hF'⟩ := List.append_subset.mp hF
    exact ⟨_, _, hp F hF, hp' F hF', rfl⟩

theorem Emits.nil (h : ∀ F, P F []) : Emits outer l l id [] [] P := by
  intro w hw
  refine ⟨[], [], w.loops, fun rest => ?_, .refl _, fun F _ => h F⟩
  rw [← hw]
  exact congrArg (rest.foldlM Writer.instr) w.extend_nil.symm

theorem Emits.one {c : Code}
    (h : ∀ w : Writer, w.scopes = l.scopes outer → Reads code w (w.add c.edits)) :
    Emits outer l l code [] [] (fun _ codes => codes = [c]) := by
  intro w hw
  refine ⟨[], [c], w.loops, ?_, .refl _, fun _ _ => rfl⟩
  rw [Code.editsAll_singleton, ← hw, List.filterMap_nil, ← w.add_eq_extend]
  exact h w hw

theorem Emits.assign {value : Expr} (line : Nat) (ha : Assignable (l :: outer) name)
    (hv : value.Scoped (l :: outer)) :
    Emits outer l l (fun rest => value.codeThen (⟨.store name, line⟩ :: rest)) [] []
      (fun _ codes => codes = [.set (idOf (l :: outer) name) (value.folded (l :: outer))]) := by
  refine .one fun w hw => (Expr.reads w hw hv).trans (.instr ?_)
  simp only [Writer.instr, w.scopes_push, hw, ha.binding, Writer.pop_push, bind, Except.bind]
  rfl

theorem Emits.readAll {names : List String} (line : Nat)
    (hs : ∀ name ∈ names, Assignable (l :: outer) name) :
    Emits outer l l (names.map (fun name => ⟨.read name, line⟩) ++ ·) [] []
      (fun _ codes => codes = names.map fun name => .read (idOf (l :: outer) name)) := by
  induction names with
  | nil => exact .nil fun _ => rfl
  | cons name names ih =>
    obtain ⟨hname, hnames⟩ := List.forall_mem_cons.mp hs
    have hread : Emits outer l l (⟨.read name, line⟩ :: ·) [] []
        (fun _ codes => codes = [.read (idOf (l :: outer) name)]) := .one fun w hw => .instr (by
      simp only [Writer.instr, hw, hname.binding]
      rfl)
    refine (hread.seq (ih hnames)).imp ?_
    rintro F codes ⟨a, b, rfl, rfl, rfl⟩
    rfl

theorem Emits.writeAll {es : List Expr} (line : Nat) (hs : ∀ e ∈ es, e.Scoped (l :: outer)) :
    Emits outer l l (Expr.writeAllThen line es) [] []
      (fun _ codes => codes = es.map fun e => .write (e.folded (l :: outer))) := by
  induction es with
  | nil => exact .nil fun _ => rfl
  | cons x es ih =>
    obtain ⟨hx, hes⟩ := List.forall_mem_cons.mp hs
    have hwrite : Emits outer l l (fun rest => x.codeThen (⟨.write, line⟩ :: rest)) [] []
        (fun _ codes => codes = [.write (x.folded (l :: outer))]) :=
      .one fun w hw => (Expr.reads w hw hx).trans (.instr (by
        simp only [Writer.instr, Writer.pop_push, bind, Except.bind]
        rfl))
    refine (hwrite.seq (ih hes)).imp ?_
    rintro F codes ⟨a, b, rfl, rfl, rfl⟩
    rfl

theorem Emits.whileDo (line : Nat) (hc : cond.Scoped (l :: outer))
    (hb : Emits outer l l' (Stmt.codeAllThen consts body) ds []
      (fun F => Stmt.EmittedAll F outer l body)) :
    Emits outer l l' (Stmt.codeThen consts (.whileDo cond body line)) ds []
      (fun F => (Stmt.whileDo cond body line).Emitted F outer l) := by
  intro w hw
  let n := w.loops + 1
  let test : Code := .branchIfZero (.behind n) (cond.folded (l :: outer))
  let m := w.markers.push (.whileLoop n) ⟨.whileMark, line⟩
  let w1 := w.extend ⟨[], [], [], Writer.openLoop n⟩ m w.scopes n
  obtain ⟨fs, codes, loops, hr, hf, hp⟩ := hb (w1.add test.edits) ((w1.scopes_add _).trans hw)
  refine ⟨fs, [loopBlock n (test :: codes)], loops, ?_, hf, fun F hF => ⟨n, codes, hp F hF, rfl⟩⟩
  have hstart : w.instr ⟨.whileMark, line⟩ = .ok w1 := congrArg Except.ok (w.startLoop_eq ..)
  have htest : (w1.push (exprText (cond.folded (l :: outer)))).instr ⟨.doMark, line⟩ =
      .ok (w1.add test.edits) := by
    simp only [Writer.instr, Writer.testWhile, Writer.markers_push, Writer.pop_push]
    rfl
  refine (Reads.instr hstart).trans <| (Expr.reads w1 hw hc).trans <|
    (Reads.instr htest).trans <| hr.trans (.instr ?_)
  rw [w1.add_eq_extend, Writer.extend_extend, Writer.extend_extend]
  refine (congrArg Except.ok (Writer.add_marked _ w.markers (Writer.closeLoop n))).trans ?_
  rw [Writer.extend_extend, Code.editsAll_singleton, edits_loopBlock]
  simp [Part.append, Code.editsAll, Writer.extend]

theorem Emits.forTo {counter : String} {start bound : Expr} (line : Nat)
    (ha : Assignable (l :: outer) counter) (hs : start.Scoped (l :: outer))
    (hbd : bound.Scoped (l :: outer))
    (hb : Emits outer l l' (Stmt.codeAllThen consts body) ds []
      (fun F => Stmt.EmittedAll F outer l body)) :
    Emits outer l l' (Stmt.codeThen consts (.forTo counter start bound body line)) ds []
      (fun F => (Stmt.forTo counter start bound body line).Emitted F outer l) := by
  intro w hw
  let id := idOf (l :: outer) counter
  let n := w.loops + 1
  let first : Code := .set id (start.folded (l :: outer))
  let test : Code := .branchUnlessBelow (.behind n) id (bound.folded (l :: outer))
  let m := w.markers.push (.forLoop n id) ⟨.forInit counter, line⟩
  let w1 := w.extend ⟨[], [], [], first.edits ++ Writer.openLoop n⟩ m w.scopes n
  obtain ⟨fs, codes, loops, hr, hf, hp⟩ := hb (w1.add test.edits) ((w1.scopes_add _).trans hw)
  refine ⟨fs, [first, loopBlock n (test :: codes ++ [.increment id])], loops, ?_, hf,
    fun F hF => ⟨n, codes, hp F hF, rfl⟩⟩
  have hstart : (w.push (exprText (start.folded (l :: outer)))).instr ⟨.forInit counter, line⟩ =
      .ok w1 := by
    have hloop : (w.add first.edits).startLoop (.forLoop · id) ⟨.forInit counter, line⟩ = w1 := by
      rw [Writer.startLoop_eq, w.add_eq_extend, Writer.extend_extend]
      rfl
    rw [← hloop]
    simp only [Writer.instr, Writer.startFor, w.scopes_push, hw, ha.binding, Writer.pop_push, bind,
      Except.bind]
    rfl
  have htest : (w1.push (exprText (bound.folded (l :: outer)))).instr ⟨.forTo counter, line⟩ =
      .ok (w1.add test.edits) := by
    simp only [Writer.instr, Writer.testFor, Writer.markers_push, Writer.pop_push]
    rfl
  refine (Expr.reads w hw hs).trans <| (Reads.instr hstart).trans <|
    (Expr.reads w1 hw hbd).trans <| (Reads.instr htest).trans <| hr.trans (.instr ?_)
  rw [w1.add_eq_extend, Writer.extend_extend, Writer.extend_extend]
  refine (congrArg Except.ok (Writer.add_marked _ w.markers
    ((Code.increment id).edits ++ Writer.closeLoop n))).trans ?_
  rw [Writer.extend_extend, Code.editsAll, Code.editsAll_singleton, edits_loopBlock]
  simp [Part.append, Code.editsAll, Code.editsAll_append, Writer.extend]

theorem Emits.procedure {body : Block} (line : Nat)
    (hb : Emits (l.add (.procedure name body) :: outer) (l.inside name) l' (body.codeThen consts) ds
      (Decl.savedAll true (l.path ++ [name]) body.decls)
      (fun F => body.Emitted F (l.add (.procedure name body) :: outer) (l.inside name))) :
    Emits outer l (l.add (.procedure name body)) (Stmt.codeThen consts (.procedure name body line))
      ((l.path, .procedure name body) :: ds) []
      (fun F => (Stmt.procedure name body line).Emitted F outer l) := by
  intro w hw
  let w1 := w.startProcedure name ⟨.procedureStart name, line⟩
  have hscopes : w1.scopes = (l.inside name).scopes (l.add (.procedure name body) :: outer) := by
    rw [← Layer.scopes_enter, ← hw]
    rfl
  obtain ⟨fs, codes, loops, hr, hf, hp⟩ := hb w1 hscopes
  let f : Function :=
    ⟨qualify l.path name, Decl.savedAll true (l.path ++ [name]) body.decls, codes⟩
  refine ⟨fs ++ [f], [], loops, (Reads.instr rfl).trans (hr.trans (.instr ?_)), ?_, fun F hF => ?_⟩
  · have hpath : f.id = dotted (w.scopes.enter name).path := by rw [hw]; rfl
    have hglobals : ((l.path, .procedure name body) :: ds).filterMap Declared.global? =
        ds.filterMap Declared.global? := List.filterMap_cons_none rfl
    have hend := w.endProcedure_extend (l'.scopes (l.add (.procedure name body) :: outer)) loops
      name ⟨.procedureStart name, line⟩ ⟨.procedureEnd name, line⟩
      (ds.filterMap Declared.global?) fs f.saved codes
    rw [← hpath] at hend
    rw [hglobals]
    exact hend
  · -- a function is listed when its body ends, behind those declared in it
    have hpaths : procedurePaths ((l.path, .procedure name body) :: ds) =
        (l.path ++ [name]) :: procedurePaths ds := rfl
    rw [hpaths, List.map_append, List.map_cons]
    exact (List.perm_append_singleton _ _).trans (hf.cons _)
  · obtain ⟨hfs, hmem⟩ := List.append_subset.mp hF
    exact ⟨rfl, codes, hp F hfs, hmem List.mem_cons_self⟩

/-- In any open branch the code is read to the end of the conditional; `P` holds of what stands in the
`else` of the branch. -/
def Closes (outer : List Layer) (l l' : Layer) (code : List Instr → List Instr) (ds : List Declared)
    (P : List Function → Option (List Code) → Prop) : Prop :=
  ∀ (w : Writer) guards marker line markers, w.scopes = l.scopes outer →
    w.markers = ⟨.branch (guards + 1) false, marker, line⟩ :: markers → ∃ functions o loops,
      Reads code w (w.extend ⟨ds.filterMap Declared.global?, functions, [],
        editsElse o ++ List.replicate (2 * guards) .closing⟩ markers (l'.scopes outer) loops) ∧
      (functions.map (·.id)).Perm ((procedurePaths ds).map dotted) ∧
      ∀ F, functions ⊆ F → P F o

theorem Closes.endIf (line : Nat) :
    Closes outer l l (⟨.endIf, line⟩ :: ·) [] (fun F o => Stmt.LastEmitted F outer l none o) := by
  intro w guards marker ln markers hw hm
  refine ⟨[], none, w.loops, .instr ?_, .refl _, fun F _ => rfl⟩
  rw [← hw, List.filterMap_nil, ← w.add_marked]
  simp only [Writer.instr, Writer.endIf, hm]
  rfl

theorem Closes.elseBranch {other : List Stmt} (line : Nat)
    (ho : Emits outer l l' (Stmt.codeAllThen consts other) ds []
      (fun F => Stmt.EmittedAll F outer l other)) :
    Closes outer l l'
      (fun rest => ⟨.elseMark, line⟩ :: Stmt.codeAllThen consts other (⟨.endIf, line⟩ :: rest)) ds
      (fun F o => Stmt.LastEmitted F outer l (some other) o) := by
  intro w guards marker ln markers hw hm
  let m : Markers Writer.Frame := ⟨.branch (guards + 1) true, marker, ln⟩ :: markers
  let w1 := w.extend ⟨[], [], [], [.closing, .opening "(else"]⟩ m w.scopes w.loops
  have helse : w.instr ⟨.elseMark, line⟩ = .ok w1 := by
    have hcontinue : w.continueIf ⟨.elseMark, line⟩ true = .ok { w with markers := m } := by
      simp only [Writer.continueIf, hm]
      rfl
    simp only [Writer.instr, Writer.elseBranch, hcontinue, bind, Except.bind, Writer.add_withMarkers,
      Writer.add_marked]
    rfl
  obtain ⟨fs, codes, loops, hr, hf, hp⟩ := ho w1 hw
  refine ⟨fs, some codes, loops, (Reads.instr helse).trans (hr.trans (.instr ?_)), hf,
    fun F hF => ⟨_, hp F hF, rfl⟩⟩
  refine (congrArg Except.ok (Writer.add_marked _ markers
    (List.replicate (2 * (guards + 1)) .closing))).trans ?_
  rw [Writer.extend_extend, Writer.extend_extend]
  simp [Part.append, editsElse, Writer.extend, Nat.mul_add, List.replicate_succ]

theorem Closes.elseIf {es : List ElseIf}
    {last : List Function → Layer → Option (List Code) → Prop} (line : Nat)
    (hc : cond.Scoped (l :: outer))
    (hb : Emits outer l (Stmt.afterAll l body) (Stmt.codeAllThen consts body) ds []
      (fun F => Stmt.EmittedAll F outer l body))
    (ho : Closes outer (Stmt.afterAll l body) l'' code ds'
      (fun F => ElseIf.EmittedAll F outer (Stmt.afterAll l body) es (last F))) :
    Closes outer l l''
      (fun rest => cond.codeThen (⟨.elseIf, line⟩ :: Stmt.codeAllThen consts body (code rest)))
      (ds ++ ds') (fun F => ElseIf.EmittedAll F outer l (⟨cond, body, line⟩ :: es) (last F)) := by
  intro w guards marker ln markers hw hm
  let text := exprText (cond.folded (l :: outer))
  let m : Markers Writer.Frame := ⟨.branch (guards + 2) false, marker, ln⟩ :: markers
  let w1 := w.extend ⟨[], [], [], .closing :: .opening "(else" :: Writer.openGuard text⟩ m w.scopes
    w.loops
  have helse : (w.push text).instr ⟨.elseIf, line⟩ = .ok w1 := by
    have hcontinue : (w.push text).continueIf ⟨.elseIf, line⟩ false =
        .ok { w.push text with markers := m } := by
      simp only [Writer.continueIf, w.markers_push, hm]
      rfl
    simp only [Writer.instr, Writer.elseIf, hcontinue, Writer.pop_withMarkers, Writer.pop_push, bind,
      Except.bind, Except.map, Writer.add_withMarkers, Writer.add_marked]
    rfl
  obtain ⟨fs, codes, loops, hr, hf, hp⟩ := hb w1 hw
  obtain ⟨fs', o, loops', hr', hf', hp'⟩ := ho (w1.extend
    ⟨ds.filterMap Declared.global?, fs, [], Code.editsAll codes⟩ w1.markers
    ((Stmt.afterAll l body).scopes outer) loops) (guards + 1) marker ln markers rfl rfl
  refine ⟨fs ++ fs', some [.ifElse (cond.folded (l :: outer)) codes o], loops', ?_, ?_,
    fun F hF => ?_⟩
  · refine (Expr.reads w hw hc).trans <| (Reads.instr helse).trans (hr.trans fun rest => ?_)
    rw [hr' rest, Writer.extend_extend, Writer.extend_extend]
    simp [Part.append, editsElse, edits_ifElse, Code.editsAll_singleton, text, Nat.mul_add,
      List.replicate_succ, List.filterMap_append]
  · rw [List.map_append, procedurePaths_append, List.map_append]
    exact hf.append hf'
  · obtain ⟨hF, hF'⟩ := List.append_subset.mp hF
    exact ⟨_, o, hp F hF, hp' F hF', rfl⟩

theorem Emits.ifElse {es : List ElseIf}
    {otherwise : Option (List Stmt)} (line : Nat) (hc : cond.Scoped (l :: outer))
    (hb : Emits outer l (Stmt.afterAll l body) (Stmt.codeAllThen consts body) ds []
      (fun F => Stmt.EmittedAll F outer l body))
    (ho : Closes outer (Stmt.afterAll l body) l'' code ds' (fun F => ElseIf.EmittedAll F outer
      (Stmt.afterAll l body) es (fun l o => Stmt.LastEmitted F outer l otherwise o))) :
    Emits outer l l''
      (fun rest => cond.codeThen (⟨.ifMark, line⟩ :: Stmt.codeAllThen consts body (code rest)))
      (ds ++ ds') [] (fun F => (Stmt.ifElse cond body es otherwise line).Emitted F outer l) := by
  intro w hw
  let text := exprText (cond.folded (l :: outer))
  let w1 := w.extend ⟨[], [], [], Writer.openGuard text⟩ (w.markers.push (.branch 1 false)
    ⟨.ifMark, line⟩) w.scopes w.loops
  have hif : (w.push text).instr ⟨.ifMark, line⟩ = .ok w1 := by
    simp only [Writer.instr, Writer.startIf, Writer.pop_push, bind, Except.bind, Writer.add_marked]
    rfl
  obtain ⟨fs, codes, loops, hr, hf, hp⟩ := hb w1 hw
  obtain ⟨fs', o, loops', hr', hf', hp'⟩ := ho (w1.extend
    ⟨ds.filterMap Declared.global?, fs, [], Code.editsAll codes⟩ w1.markers
    ((Stmt.afterAll l body).scopes outer) loops) 0 _ _ w.markers rfl rfl
  refine ⟨fs ++ fs', [.ifElse (cond.folded (l :: outer)) codes o], loops', ?_, ?_, fun F hF => ?_⟩
  · refine (Expr.reads w hw hc).trans <| (Reads.instr hif).trans (hr.trans fun rest => ?_)
    rw [hr' rest, Writer.extend_extend, Writer.extend_extend]
    simp [Part.append, edits_ifElse, Code.editsAll_singleton, text, List.filterMap_append]
  · rw [List.map_append, procedurePaths_append, List.map_append]
    exact hf.append hf'
  · obtain ⟨hF, hF'⟩ := List.append_subset.mp hF
    exact ⟨_, o, hp F hF, hp' F hF', rfl⟩

theorem Emits.declare {i : Instr} (entry : ScopeEntry) (constant : Option Int32)
    (hl : l.path.isEmpty = outer.isEmpty) (he : entry.isProcedure = false)
    (hglobal : Declared.global? (l.path, entry) =
      some ⟨qualify l.path entry.name, Declared.exported? (l.path, entry), constant⟩)
    (hi : ∀ w : Writer, w.instr i = .ok (w.declare entry.name constant)) :
    Emits outer l (l.add entry) (i :: ·) [(l.path, entry)]
      (if constant.isNone && !outer.isEmpty then [qualify l.path entry.name] else [])
      (fun _ codes => codes = []) := by
  intro w hw
  have hin : ((l.add entry).scopes outer).inProcedure = !outer.isEmpty := by cases outer <;> rfl
  refine ⟨[], [], w.loops, .instr ?_, by simp [procedurePaths, he], fun F _ => rfl⟩
  rw [hi, w.declare_eq _ _ constant (hw ▸ Layer.scopes_declare l outer he), hin,
    List.filterMap_cons_some hglobal, List.filterMap_nil, Declared.exported?, hl]
  rfl

end StackModule

theorem Decl.emits {d : Decl} (hl : l.path.isEmpty = outer.isEmpty) (hk : consts.Match (l :: outer))
    (hd : ∀ i ∈ d.init, i.Scoped (l :: outer)) :
    Emits outer l (l.add (d.entry (l :: outer))) (d.codeThen consts) [(l.path, d.entry (l :: outer))]
      (d.saved (!outer.isEmpty) l.path) (fun _ codes => codes = d.sets (l :: outer) l.path) := by
  match d with
  | .var name none line => exact .declare (.var name) none hl rfl rfl fun _ => rfl
  | .var name (some init) line =>
    have hassign : Assignable (l.add (.var name) :: outer) name := ⟨_, by rw [lookup_add]; exact if_pos rfl, rfl⟩
    have hid : idOf (l.add (.var name) :: outer) name = qualify l.path name := by
      simp [idOf, lookup_add, ScopeEntry.name]
    have hset := Emits.assign line hassign
      (show (Expr.literal (consts.value init) line).Scoped (l.add (.var name) :: outer) from trivial)
    have hdeclare : Emits outer l _ (⟨.declare name, line⟩ :: ·) _ _ _ :=
      .declare (.var name) none hl rfl rfl fun _ => rfl
    have hboth := hdeclare.seq hset
    rw [List.append_nil, List.append_nil, hid] at hboth
    refine hboth.imp ?_
    rintro F codes ⟨a, b, rfl, rfl, rfl⟩
    rw [Expr.folded, hk.value (hd init rfl)]
    rfl
  | .const name init line =>
    have hcode : Decl.codeThen consts (.const name init line) =
        (⟨.const name (init.elim 0 (·.valueIn (l :: outer))), line⟩ :: ·) := by
      funext rest
      rw [Decl.codeThen, hk.constant init hd]
    rw [hcode]
    exact .declare (.const name _) (some _) hl rfl rfl fun _ => rfl

theorem Decl.emitsAll {ds : List Decl} (hl : l.path.isEmpty = outer.isEmpty) (hk : consts.Match (l :: outer))
    (hd : Decl.ScopedAll outer l ds) :
    Emits outer l (Decl.afterAll outer l ds) (Decl.codeAllThen consts ds) (Decl.declaredAll outer l ds)
      (Decl.savedAll (!outer.isEmpty) l.path ds) (fun _ codes => codes = Decl.setsAll outer l ds) := by
  induction ds generalizing l consts with
  | nil => exact .nil fun _ => rfl
  | cons d ds ih =>
    obtain ⟨-, -, hi, hds⟩ := hd
    refine ((Decl.emits hl hk hi).seq (ih hl (hk.bind hi) hds)).imp ?_
    rintro F codes ⟨a, b, rfl, rfl, rfl⟩
    rfl

mutual

theorem Stmt.emits {consts : Constants} {outer : List Layer} {l : Layer} (s : Stmt) (hs : s.Scoped outer l)
    (hl : l.path.isEmpty = outer.isEmpty) (hk : consts.Match (l :: outer)) :
    Emits outer l (s.after l) (s.codeThen consts) (s.declared outer l) [] (fun F => s.Emitted F outer l) := by
  match s with
  | .assign name value line => exact .assign line hs.1 hs.2
  | .ifElse cond body elseIfs (some other) line =>
    obtain ⟨hc, hb, he, ho⟩ := hs
    rw [Stmt.declared, List.append_assoc]
    have hl' : (Stmt.afterAll l body).path.isEmpty = outer.isEmpty := by rwa [Stmt.afterAll_path]
    exact .ifElse line hc (Stmt.emitsAll body hb hl hk) (ElseIf.emitsAll elseIfs he hl' (hk.afterAll body)
      (.elseBranch line (Stmt.emitsAll other ho (by rwa [ElseIf.afterAll_path])
        ((hk.afterAll body).afterElseIfs elseIfs))))
  | .ifElse cond body elseIfs none line =>
    obtain ⟨hc, hb, he, -⟩ := hs
    rw [Stmt.declared, List.append_assoc]
    exact .ifElse line hc (Stmt.emitsAll body hb hl hk)
      (ElseIf.emitsAll elseIfs he (by rwa [Stmt.afterAll_path]) (hk.afterAll body) (.endIf line))
  | .whileDo cond body line => exact .whileDo line hs.1 (Stmt.emitsAll body hs.2 hl hk)
  | .forTo counter start bound body line =>
    exact .forTo line hs.1 hs.2.1 hs.2.2.1 (Stmt.emitsAll body hs.2.2.2 hl hk)
  | .read names line => exact .readAll line hs
  | .write values line => exact .writeAll line hs
  | .call name line =>
    refine .one fun w hw => .instr ?_
    simp only [Writer.instr, hw, Callable.procedure hs]
    rfl
  | .group body line => exact Stmt.emitsAll body hs hl hk
  | .procedure name body line =>
    exact .procedure line (Block.emits body hs.2.2 (by simp) ((hk.procedure name body).inside name))

theorem Stmt.emitsAll {consts : Constants} {outer : List Layer} {l : Layer} (ss : List Stmt)
    (hs : Stmt.ScopedAll outer l ss) (hl : l.path.isEmpty = outer.isEmpty) (hk : consts.Match (l :: outer)) :
    Emits outer l (Stmt.afterAll l ss) (Stmt.codeAllThen consts ss) (Stmt.declaredAll outer l ss) []
      (fun F => Stmt.EmittedAll F outer l ss) := by
  match ss with
  | [] => exact .nil fun _ => rfl
  | s :: ss => exact (Stmt.emits s hs.1 hl hk).seq (Stmt.emitsAll ss hs.2 (by rwa [Stmt.after_path]) (hk.after s))

theorem ElseIf.emitsAll {consts : Constants} {outer : List Layer} {l l' : Layer}
    {code : List Instr → List Instr} {ds : List Declared} {last : List Function → Layer → Option (List Code) → Prop}
    (es : List ElseIf) (hs : ElseIf.ScopedAll outer l es) (hl : l.path.isEmpty = outer.isEmpty)
    (hk : consts.Match (l :: outer))
    (hlast : Closes outer (ElseIf.afterAll l es) l' code ds (fun F => last F (ElseIf.afterAll l es))) :
    Closes outer l l' (fun rest => ElseIf.codeAllThen consts es (code rest)) (ElseIf.declaredAll outer l es ++ ds)
      (fun F => ElseIf.EmittedAll F outer l es (last F)) := by
  match es with
  | [] => exact hlast
  | ⟨cond, body, line⟩ :: others =>
    obtain ⟨hc, hb, ho⟩ := hs
    rw [ElseIf.declaredAll, List.append_assoc]
    exact .elseIf line hc (Stmt.emitsAll body hb hl hk)
      (ElseIf.emitsAll others ho (by rwa [Stmt.afterAll_path]) (hk.afterAll body) hlast)

theorem Block.emits {consts : Constants} {outer : List Layer} {l : Layer} (b : Block) (hs : b.Scoped outer l)
    (hl : l.path.isEmpty = outer.isEmpty) (hk : consts.Match (l :: outer)) :
    Emits outer l (b.after outer l) (b.codeThen consts) (b.declared outer l)
      (Decl.savedAll (!outer.isEmpty) l.path b.decls) (fun F => b.Emitted F outer l) := by
  match b with
  | ⟨decls, some s, line⟩ =>
    have h := (Decl.emitsAll hl hk hs.1).seq (Stmt.emits s hs.2 (by rwa [Decl.afterAll_path]) (hk.bindAll hs.1))
    rw [List.append_nil] at h
    refine h.imp ?_
    rintro F codes ⟨a, b, rfl, hb, rfl⟩
    exact ⟨b, rfl, hb⟩
  | ⟨decls, none, line⟩ =>
    rw [Block.declared, List.append_nil]
    exact (Decl.emitsAll hl hk hs.1).imp fun F codes h => ⟨[], by rw [h, List.append_nil], rfl⟩

end

theorem Decl.savedAll_false (path : List String) (ds : List Decl) : Decl.savedAll false path ds = [] :=
  List.flatMap_eq_nil_iff.mpr fun d _ => by cases d <;> rfl

theorem Block.emitsAll (bs : List Block) (hs : Block.ScopedAll [] l bs) (hl : l.path.isEmpty = true)
    (hk : consts.Match [l]) :
    ∃ l', Emits [] l l' (Block.codeAllThen consts bs) (Block.declaredAll [] l bs) []
      (fun F => Block.EmittedAll F [] l bs) := by
  induction bs generalizing l consts with
  | nil => exact ⟨l, .nil fun _ => rfl⟩
  | cons b bs ih =>
    obtain ⟨l', hrest⟩ := ih hs.2 (by rwa [Block.after_path]) (hk.block hs.1)
    have h := Block.emits b hs.1 hl hk
    rw [show (!([] : List Layer).isEmpty) = false from rfl, Decl.savedAll_false] at h
    exact ⟨l', h.seq hrest⟩

/-- A well-scoped program has a stack module, which is written line by line as the text of a tree: its
globals are those of all declarations, its functions those of all procedures, and its entry is the code
of the blocks. No expression is left unused. -/
theorem Program.emits {p : Program} (h : p.Scoped) : ∃ (M : StackModule) (w : Writer),
    Writer.ofCode p.code = .ok w ∧ Target.stackModule.render p.code = .ok (M.text, []) ∧
    M.globals = p.declared.filterMap Declared.global? ∧
    (M.functions.map (·.id)).Perm ((procedurePaths p.declared).map dotted) ∧
    Block.EmittedAll M.functions [] .initial p.blocks M.entry := by
  obtain ⟨l', hl⟩ := Block.emitsAll p.blocks h rfl .initial
  obtain ⟨fs, codes, loops, hr, hf, hp⟩ := hl .initial rfl
  let globals := p.declared.filterMap Declared.global?
  let w := Writer.initial.extend ⟨globals, fs, [], Code.editsAll codes⟩ [] (l'.scopes []) loops
  have hw : Writer.ofCode p.code = .ok w := by
    rw [Writer.ofCode, Program.code, hr []]
    rfl
  refine ⟨⟨globals, fs, codes⟩, w, hw, ?_, rfl, hf, hp fs (List.Subset.refl _)⟩
  rw [Target.render, hw, ← Writer.text_extend_initial globals fs codes (l'.scopes []) loops]
  rfl

/-- The function of a procedure saves all its variables. -/
theorem Catalogue.mem_savedAll {D : List Declared} {home : List String} {n : String} {body : Block}
    (hD : Catalogue D) (hproc : (home, .procedure name body) ∈ D) (hn : (home ++ [name], .var n) ∈ D) :
    qualify (home ++ [name]) n ∈ Decl.savedAll true (home ++ [name]) body.decls := by
  obtain ⟨init, line, hd⟩ := hD.own hproc hn
  exact List.mem_flatMap.mpr ⟨_, hd, List.mem_singleton.mpr rfl⟩

theorem Declared.cell?_eq (d : Declared) : d.cell? = d.global?.map fun g => (g.id, g.constant.getD 0) := by
  obtain ⟨path, entry⟩ := d
  cases entry <;> rfl

end PLZero
