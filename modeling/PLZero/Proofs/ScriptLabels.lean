import PLZero.Proofs.Lockstep
import PLZero.Proofs.ScriptRows

/-! The lines of the instructions are copied into the notes of a script and have no other effect on it. So code with
other lines has the same script with other notes, and numbers in place of lines tell which instruction a note is from. -/

namespace PLZero

def Instr.relabel (f : Nat → Nat) (i : Instr) : Instr := { i with line := f i.line }

/-- Code with the place of every instruction in place of its line. -/
def numbered (code : List Instr) : List Instr := code.mapIdx fun k i => { i with line := k }

def lineAt (code : List Instr) (k : Nat) : Nat := (code[k]?.map (·.line)).getD 0

theorem getElem?_numbered (code : List Instr) (k : Nat) :
    (numbered code)[k]? = code[k]?.map fun i => { i with line := k } := by
  rw [numbered, List.getElem?_mapIdx]

/-- The place of a numbered instruction is its line. -/
theorem mem_numbered {code : List Instr} {i : Instr} : i ∈ numbered code ↔ code[i.line]?.map (·.op) = some i.op := by
  rw [List.mem_iff_getElem?]
  constructor
  · rintro ⟨k, hk⟩
    rw [getElem?_numbered, Option.map_eq_some_iff] at hk
    obtain ⟨i, hi, rfl⟩ := hk
    rw [hi]
    rfl
  · intro hop
    obtain ⟨j, hj, hop⟩ := Option.map_eq_some_iff.mp hop
    refine ⟨i.line, ?_⟩
    rw [getElem?_numbered, hj, Option.map_some, hop]

theorem numbered_lines (code : List Instr) : (numbered code).map (·.line) = List.range code.length := by
  refine List.ext_getElem? fun k => ?_
  rw [List.getElem?_map, getElem?_numbered]
  by_cases hk : k < code.length
  · simp [hk]
  · simp [Nat.le_of_not_lt hk]

theorem numbered_relabel (code : List Instr) : (numbered code).map (Instr.relabel (lineAt code)) = code := by
  refine List.ext_getElem? fun k => ?_
  rw [List.getElem?_map, getElem?_numbered]
  cases hk : code[k]? with
  | none => rfl
  | some i => simp [Instr.relabel, lineAt, hk]

theorem numbered_ops (code : List Instr) : (numbered code).map (·.op) = code.map (·.op) := by
  have hcode := congrArg (List.map (·.op)) (numbered_relabel code)
  rw [List.map_map] at hcode
  exact hcode

namespace Script

variable (f : Nat → Nat)

def Line.relabel (l : Line) : Line := { l with note := l.note.map f }

mutual

def Function.relabel : Function → Function
  | ⟨name, note, nested, body⟩ => ⟨name, note.map f, Function.relabelAll nested, body.map (Line.relabel f)⟩

def Function.relabelAll : List Function → List Function
  | [] => []
  | g :: gs => g.relabel :: Function.relabelAll gs

end

def relabel (s : Script) : Script :=
  ⟨s.globals.map (Line.relabel f), s.functions.map (Function.relabel f), s.entry.relabel f⟩

def Row.relabel (r : Row) : Row := { r with note := r.note.map f }

theorem Function.relabelAll_eq (fs : List Function) : Function.relabelAll f fs = fs.map (Function.relabel f) := by
  induction fs with
  | nil => rfl
  | cons g gs ih => rw [Function.relabelAll, ih, List.map_cons]

mutual

theorem Function.rows_relabel (g : Function) : (g.relabel f).rows = g.rows.map (Row.relabel f) := by
  match g with
  | ⟨name, note, nested, body⟩ =>
    have hdeeper : Row.deeper ∘ Row.relabel f = Row.relabel f ∘ Row.deeper := rfl
    have hline : Line.row ∘ Line.relabel f = Row.relabel f ∘ Line.row := rfl
    simp only [Function.relabel, Function.rows, Function.rowsAll_relabel nested, List.map_append, List.map_cons,
      List.map_nil, List.map_map, hdeeper, hline]
    rfl

theorem Function.rowsAll_relabel (gs : List Function) :
    Function.rowsAll (Function.relabelAll f gs) = (Function.rowsAll gs).map (Row.relabel f) := by
  match gs with
  | [] => rfl
  | g :: gs =>
    simp only [Function.relabelAll, Function.rowsAll, Function.rows_relabel g, Function.rowsAll_relabel gs,
      List.map_append]

end

theorem rows_relabel (s : Script) : (s.relabel f).rows = s.rows.map (Row.relabel f) := by
  have hline : Line.row ∘ Line.relabel f = Row.relabel f ∘ Line.row := rfl
  have hfunctions : s.functions.map (Function.relabel f) ++ [s.entry.relabel f] =
      Function.relabelAll f (s.functions ++ [s.entry]) := by
    rw [Function.relabelAll_eq, List.map_append, List.map_singleton]
  simp only [rows, relabel, hfunctions, Function.rowsAll_relabel, List.map_append, List.map_cons, List.map_map, hline]
  rfl

def Draft.relabel (d : Draft) : Draft :=
  { d with
    note := d.note.map f
    nested := d.nested.map (Function.relabel f)
    body := d.body.map (Line.relabel f) }

def Frame.relabel : Frame → Frame
  | .procedure outer => .procedure (outer.relabel f)
  | .branch hasElse => .branch hasElse
  | .whileLoop line => .whileLoop (f line)
  | .forLoop counter start => .forLoop counter start

def relabelMarkers (m : Markers Frame) : Markers Frame := m.map fun o => ⟨o.frame.relabel f, o.marker, f o.line⟩

def Emitter.relabel (e : Emitter) : Emitter :=
  ⟨e.globals.map (Line.relabel f), e.functions.map (Function.relabel f), e.current.relabel f,
    relabelMarkers f e.markers, e.scopes⟩

theorem Draft.add_relabel (d : Draft) (s : Statement) (note : Option Nat) :
    (d.relabel f).add s (note.map f) = (d.add s note).relabel f := by
  simp only [add, relabel, Array.map_push]
  rfl

theorem Draft.function_relabel (d : Draft) : (d.relabel f).function = d.function.relabel f := by
  simp only [function, relabel, Function.relabel, Function.relabelAll_eq, Array.toList_map]

/-- The errors may differ: they tell lines. -/
abbrev anyErrors (_ _ : CodeError) : Prop := True

namespace Emitter

variable {f} (e : Emitter) (i : Instr)

theorem addOpen_relabel (s : Statement) (line : Nat) :
    (e.relabel f).addOpen s (f line) = (e.addOpen s line).relabel f := by
  have hadd := Draft.add_relabel f e.current s (some line)
  simp only [addOpen, relabel]
  rw [show (some (f line)) = (some line).map f from rfl, hadd]
  rfl

theorem add_relabel (s : Statement) (line : Nat) : (e.relabel f).add s (f line) = (e.add s line).relabel f := by
  have hadd := Draft.add_relabel f e.current s (some line)
  simp only [add, relabel]
  rw [show (some (f line)) = (some line).map f from rfl, hadd]

theorem close_relabel : (e.relabel f).close = e.close.relabel f := by
  have hadd := Draft.add_relabel f e.current.shallower .close none
  simp only [close, relabel, Draft.close]
  rw [← hadd]
  rfl

theorem pop_relabel : InStep (fun r r' => r' = (r.1, r.2.relabel f)) anyErrors (e.pop i)
    ((e.relabel f).pop (i.relabel f)) := by
  have hstack : (e.relabel f).current.stack = e.current.stack := rfl
  unfold pop
  rw [hstack]
  cases e.current.stack with
  | nil => exact .error trivial
  | cons v stack => exact .ok rfl

theorem binding_relabel (name : String) :
    InStep (fun id id' => id' = id) anyErrors (e.binding name i) ((e.relabel f).binding name (i.relabel f)) := by
  unfold binding Scopes.binding
  have hscopes : (e.relabel f).scopes = e.scopes := rfl
  rw [hscopes]
  cases e.scopes.resolve name with
  | none => exact .error trivial
  | some path => exact .ok rfl

theorem procedure_relabel (name : String) : InStep (fun _ _ => True) anyErrors
    (discard (e.scopes.procedure name i)) (discard ((e.relabel f).scopes.procedure name (i.relabel f))) := by
  unfold Scopes.procedure
  have hscopes : (e.relabel f).scopes = e.scopes := rfl
  rw [hscopes]
  cases e.scopes.resolveProcedure name with
  | none => exact .error trivial
  | some path => exact .ok trivial

section Markers

variable {β : Type} {select : Frame → Option β} {g : β → β} (m : Markers Frame)

theorem top_relabel (hs : ∀ fr : Frame, select (fr.relabel f) = (select fr).map g) :
    InStep (fun b b' => b' = g b) anyErrors (m.top i select) ((relabelMarkers f m).top (i.relabel f) select) := by
  cases m with
  | nil => exact .error trivial
  | cons o rest =>
    simp only [relabelMarkers, List.map_cons, Markers.top, hs]
    cases select o.frame with
    | none => exact .error trivial
    | some b => exact .ok rfl

theorem popMarker_relabel (hs : ∀ fr : Frame, select (fr.relabel f) = (select fr).map g) :
    InStep (fun r r' => r' = (g r.1, relabelMarkers f r.2)) anyErrors (m.pop i select)
      ((relabelMarkers f m).pop (i.relabel f) select) := by
  cases m with
  | nil => exact .error trivial
  | cons o rest =>
    simp only [relabelMarkers, List.map_cons, Markers.pop, hs]
    cases select o.frame with
    | none => exact .error trivial
    | some b => exact .ok rfl

end Markers

theorem declare_relabel (name : String) (s : Statement) :
    (e.relabel f).declare name s (i.relabel f) = (e.declare name s i).relabel f := by
  have hscopes : (e.relabel f).scopes = e.scopes := rfl
  simp only [declare, hscopes]
  split
  · exact add_relabel { e with scopes := e.scopes.declare name } s i.line
  · simp only [relabel, Array.map_push]
    rfl

theorem startProcedure_relabel (name : String) :
    (e.relabel f).startProcedure name (i.relabel f) = (e.startProcedure name i).relabel f := by
  simp only [startProcedure, relabel, relabelMarkers, Markers.push, List.map_cons, Draft.start, Draft.relabel,
    Array.map_empty]
  rfl

theorem endProcedure_relabel : InStep (fun e e' => e' = e.relabel f) anyErrors (e.endProcedure i)
    ((e.relabel f).endProcedure (i.relabel f)) := by
  have hscopes : (e.relabel f).scopes = e.scopes := rfl
  have hfunction : (e.relabel f).current.function = e.current.function.relabel f := Draft.function_relabel ..
  refine (popMarker_relabel (g := Draft.relabel f) i e.markers fun fr => by cases fr <;> rfl).bind ?_
  rintro ⟨outer, markers⟩ _ rfl
  simp only [hscopes, hfunction]
  split
  · refine .ok ?_
    simp only [relabel, Draft.relabel, Array.map_push]
  · refine .ok ?_
    simp only [relabel, Array.map_push]

theorem checkBranch_relabel :
    InStep (fun _ _ => True) anyErrors (e.checkBranch i) ((e.relabel f).checkBranch (i.relabel f)) := by
  refine (top_relabel (g := id) i e.markers fun fr => by cases fr <;> rfl).bind ?_
  intro hasElse _ heq
  rw [heq]
  cases hasElse with
  | false => exact .ok trivial
  | true => exact .error trivial

theorem closed_relabel {β : Type} {select : Frame → Option β} {g : β → β}
    (hs : ∀ fr : Frame, select (fr.relabel f) = (select fr).map g) :
    InStep (fun e e' => e' = e.relabel f) anyErrors
      (do
        let (_, markers) ← e.markers.pop i select
        return { e.close with markers })
      (do
        let (_, markers) ← (e.relabel f).markers.pop (i.relabel f) select
        return { (e.relabel f).close with markers }) := by
  refine (popMarker_relabel i e.markers hs).bind ?_
  rintro ⟨b, markers⟩ _ rfl
  refine .ok ?_
  rw [close_relabel]
  rfl

theorem elseBranch_relabel : InStep (fun e e' => e' = e.relabel f) anyErrors (e.elseBranch i)
    ((e.relabel f).elseBranch (i.relabel f)) := by
  refine (checkBranch_relabel e i).bind fun _ _ _ => .ok ?_
  have hadd := Draft.add_relabel f e.current.shallower .openElse none
  have hmarkers : (relabelMarkers f e.markers).replace (.branch true) =
      relabelMarkers f (e.markers.replace (.branch true)) := by
    cases e.markers <;> rfl
  exact congrArg₂ (fun d m => (⟨(e.relabel f).globals, (e.relabel f).functions, d, m, e.scopes⟩ : Emitter))
    (congrArg Draft.deeper hadd) hmarkers

theorem instr_relabel : InStep (fun e e' => e' = e.relabel f) anyErrors (e.instr i)
    ((e.relabel f).instr (i.relabel f)) := by
  obtain ⟨op, line⟩ := i
  cases op with
  | declare name => exact .ok (declare_relabel ..)
  | const name value => exact .ok (declare_relabel ..)
  | load name =>
    refine (binding_relabel e _ name).bind ?_
    rintro id _ rfl
    exact .ok rfl
  | push value => exact .ok rfl
  | oper op =>
    refine (pop_relabel e _).bind ?_
    rintro ⟨right, e1⟩ _ rfl
    refine (pop_relabel e1 _).bind ?_
    rintro ⟨left, e2⟩ _ rfl
    exact .ok rfl
  | store name =>
    refine (binding_relabel e _ name).bind ?_
    rintro id _ rfl
    refine (pop_relabel e _).bind ?_
    rintro ⟨value, e1⟩ _ rfl
    exact .ok (add_relabel e1 _ line)
  | call name => exact (procedure_relabel e _ name).bind fun _ _ _ => .ok (add_relabel e _ line)
  | read name =>
    refine (binding_relabel e _ name).bind ?_
    rintro id _ rfl
    exact .ok (add_relabel e _ line)
  | write =>
    refine (pop_relabel e _).bind ?_
    rintro ⟨value, e1⟩ _ rfl
    exact .ok (add_relabel e1 _ line)
  | procedureStart name => exact .ok (startProcedure_relabel ..)
  | procedureEnd name => exact endProcedure_relabel e _
  | ifMark =>
    refine (pop_relabel e _).bind ?_
    rintro ⟨cond, e1⟩ _ rfl
    have hadd := addOpen_relabel (f := f) e1 (.openIf cond) line
    exact .ok (congrArg
      (fun a => { a with markers := (relabelMarkers f e1.markers).push (.branch false) ⟨.ifMark, f line⟩ }) hadd)
  | elseIf =>
    refine (checkBranch_relabel e _).bind fun _ _ _ => (pop_relabel e _).bind ?_
    rintro ⟨cond, e1⟩ _ rfl
    exact .ok (addOpen_relabel { e1 with current := e1.current.shallower } _ line)
  | elseMark => exact elseBranch_relabel e _
  | endIf => exact closed_relabel (g := id) e _ fun fr => by cases fr <;> rfl
  | whileMark => exact .ok rfl
  | doMark =>
    refine (top_relabel (g := f) _ e.markers fun fr => by cases fr <;> rfl).bind ?_
    rintro start _ rfl
    refine (pop_relabel e _).bind ?_
    rintro ⟨cond, e1⟩ _ rfl
    exact .ok (addOpen_relabel e1 _ start)
  | endWhile => exact closed_relabel (g := f) e _ fun fr => by cases fr <;> rfl
  | forInit name =>
    refine (binding_relabel e _ name).bind ?_
    rintro id _ rfl
    refine (pop_relabel e _).bind ?_
    rintro ⟨start, e1⟩ _ rfl
    exact .ok rfl
  | forTo name =>
    refine (pop_relabel e _).bind ?_
    rintro ⟨bound, e1⟩ _ rfl
    refine (top_relabel (g := id) _ e1.markers fun fr => by cases fr <;> rfl).bind ?_
    rintro ⟨counter, start⟩ _ rfl
    exact .ok (addOpen_relabel e1 _ line)
  | endFor name => exact closed_relabel (g := id) e _ fun fr => by cases fr <;> rfl

theorem run_relabel (code : List Instr) : InStep (fun e e' => e' = e.relabel f) anyErrors
    (code.foldlM instr e) ((code.map (Instr.relabel f)).foldlM instr (e.relabel f)) := by
  induction code generalizing e with
  | nil => exact .ok rfl
  | cons i code ih =>
    rw [List.map_cons, List.foldlM_cons, List.foldlM_cons]
    refine (instr_relabel e i).bind ?_
    rintro e1 _ rfl
    exact ih e1

end Emitter

/-- Other lines in the code are other notes in the script. -/
theorem ofCode_relabel (code : List Instr) : InStep (fun s s' => s' = s.relabel f) anyErrors
    (ofCode code) (ofCode (code.map (Instr.relabel f))) := by
  have hinitial : Emitter.initial.relabel f = .initial := by
    simp [Emitter.relabel, Emitter.initial, Draft.relabel, Draft.start, relabelMarkers]
  have hrun := Emitter.run_relabel (f := f) .initial code
  rw [hinitial] at hrun
  refine hrun.bind ?_
  rintro e _ rfl
  have hfinish : InStep (fun _ _ => True) anyErrors e.markers.finish (e.relabel f).markers.finish := by
    unfold Emitter.relabel relabelMarkers
    cases e.markers with
    | nil => exact .ok trivial
    | cons o rest => exact .error trivial
  refine hfinish.bind fun _ _ _ => .ok ?_
  simp only [Emitter.relabel, relabel, Draft.function_relabel, Array.toList_map]

/-- Code with a script has one for its numbered instructions, and the two differ in their notes only. -/
theorem ofCode_numbered {code : List Instr} {script : Script} (h : ofCode code = .ok script) :
    ∃ marked, ofCode (numbered code) = .ok marked ∧ script = marked.relabel (lineAt code) := by
  have hstep := ofCode_relabel (lineAt code) (numbered code)
  rw [numbered_relabel, h] at hstep
  rcases hstep.elim with ⟨marked, script', hmarked, hscript, heq⟩ | ⟨_, _, -, herror, -⟩
  · cases hscript
    exact ⟨marked, hmarked, heq⟩
  · cases herror

end Script

end PLZero
