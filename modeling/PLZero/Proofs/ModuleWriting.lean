import PLZero.Proofs.ModuleTree

/-! The writer of a module while code is read. Lines go to the innermost function under construction,
so what a piece of code does is what it adds to that function and to the whole module. -/

namespace PLZero.StackModule

def Function.draft (f : Function) : Writer.Draft :=
  ⟨f.id, none, f.saved.toArray, (Code.editsAll f.body).toArray, []⟩

/-- What reading a piece of code adds to a module under construction. -/
structure Part where
  globals : List Global
  functions : List Function
  saved : List String
  edits : List Edit

def Part.append (p p' : Part) : Part :=
  ⟨p.globals ++ p'.globals, p.functions ++ p'.functions, p.saved ++ p'.saved, p.edits ++ p'.edits⟩

namespace Writer

variable {w w' w'' : Writer}

/-- The functions under construction, the innermost first. -/
def opened (w : Writer) : List Draft := w.procedures ++ [w.entry]

theorem opened_eq : w.opened = w.current :: w.opened.tail := by
  unfold opened current
  cases w.procedures <;> rfl

theorem opened_withCurrent {d : Draft} : (w.withCurrent d).opened = d :: w.opened.tail := by
  unfold opened withCurrent
  cases w.procedures with
  | nil => rfl
  | cons => rfl

theorem add_withMarkers (w : Writer) (m : Markers Frame) (edits : List Edit) :
    { w with markers := m }.add edits = { w.add edits with markers := m } := by
  unfold add withCurrent current
  cases w.procedures <;> rfl

theorem pop_withMarkers (w : Writer) (m : Markers Frame) (i : Instr) :
    { w with markers := m }.pop i = (w.pop i).map fun r => (r.1, { r.2 with markers := m }) := by
  unfold pop withCurrent current
  cases w.procedures with
  | nil => cases hs : w.entry.stack <;> simp [hs, Except.map]
  | cons p ps => cases hs : p.stack <;> simp [hs, Except.map]

theorem pop_push (w : Writer) (text : String) (i : Instr) : (w.push text).pop i = .ok (text, w) := by
  obtain ⟨globals, functions, entry, procedures, markers, scopes, loops⟩ := w
  cases procedures <;> rfl

theorem scopes_push (w : Writer) (text : String) : (w.push text).scopes = w.scopes :=
  scopes_withCurrent ..

theorem markers_push (w : Writer) (text : String) : (w.push text).markers = w.markers :=
  markers_withCurrent ..

theorem scopes_add (w : Writer) (edits : List Edit) : (w.add edits).scopes = w.scopes :=
  scopes_withCurrent ..

/-- The writer with a part added, in these structures and scopes, when so many loops were met. -/
def extend (w : Writer) (p : Part) (markers : Markers Frame) (scopes : Scopes) (loops : Nat) : Writer :=
  { w.withCurrent { w.current with
      saved := w.current.saved ++ p.saved
      edits := w.current.edits ++ p.edits } with
    globals := w.globals ++ p.globals
    functions := w.functions ++ p.functions.map Function.draft
    markers
    scopes
    loops }

section

variable (w) (p p' : Part) (m m' : Markers Frame) (s s' : Scopes) (n n' : Nat)

theorem extend_extend :
    (w.extend p m s n).extend p' m' s' n' = w.extend (p.append p') m' s' n' := by
  have happend {α : Type} (a : Array α) (xs ys : List α) : a ++ xs ++ ys = a ++ (xs ++ ys) :=
    Array.toList_inj.mp (by simp)
  unfold extend withCurrent current
  cases w.procedures <;> simp [Part.append, happend]

theorem extend_nil : w.extend ⟨[], [], [], []⟩ w.markers w.scopes w.loops = w := by
  obtain ⟨globals, functions, entry, procedures, markers, scopes, loops⟩ := w
  unfold extend withCurrent current
  cases procedures <;> simp

theorem add_eq_extend (edits : List Edit) :
    w.add edits = w.extend ⟨[], [], [], edits⟩ w.markers w.scopes w.loops := by
  obtain ⟨globals, functions, entry, procedures, markers, scopes, loops⟩ := w
  unfold add extend withCurrent current
  cases procedures <;> simp [Draft.add]

theorem add_marked (edits : List Edit) :
    { w.add edits with markers := m } = w.extend ⟨[], [], [], edits⟩ m w.scopes w.loops := by
  rw [add_eq_extend]
  rfl

theorem startLoop_eq (frame : Nat → Frame) (i : Instr) : w.startLoop frame i =
    w.extend ⟨[], [], [], openLoop (w.loops + 1)⟩ (w.markers.push (frame (w.loops + 1)) i) w.scopes
      (w.loops + 1) := by
  rw [startLoop, add_eq_extend]
  rfl

theorem declare_eq (name : String) (constant : Option Int32) (hs : w.scopes.declare name = s) :
    w.declare name constant = w.extend
      ⟨[⟨qualify s.path name, if s.inProcedure || name == entryExport then none else some name,
        constant⟩], [], if constant.isNone && s.inProcedure then [qualify s.path name] else [], []⟩
      w.markers s w.loops := by
  obtain ⟨globals, functions, entry, procedures, markers, scopes, loops⟩ := w
  cases hs
  simp only [declare, extend]
  split <;> cases procedures <;> simp [save, withCurrent, current]

theorem endProcedure_extend (name : String) (i i' : Instr) (globals : List Global)
    (fs : List Function) (saved : List String) (codes : List Code) :
    ((w.startProcedure name i).extend ⟨globals, fs, saved, Code.editsAll codes⟩
        (w.startProcedure name i).markers s n).endProcedure i' =
      .ok (w.extend ⟨globals, fs ++ [⟨dotted (w.scopes.enter name).path, saved, codes⟩], [], []⟩
        w.markers s.leave n) := by
  have hpush {α : Type} (a : Array α) (xs : List α) (x : α) : a ++ (xs ++ [x]) = (a ++ xs).push x :=
    Array.toList_inj.mp (by simp)
  refine Eq.trans (b := .ok _) rfl (congrArg Except.ok ?_)
  unfold extend withCurrent current
  cases hp : w.procedures <;> simp [startProcedure, Draft.initial, Function.draft, hpush, hp]
end

/-- When all parts are added the writer has the lines of the tree. -/
theorem text_extend_initial (globals : List Global) (fs : List Function) (codes : List Code)
    (s : Scopes) (n : Nat) :
    (initial.extend ⟨globals, fs, [], Code.editsAll codes⟩ [] s n).text =
      (⟨globals, fs, codes⟩ : StackModule).text := by
  have hlines : Function.lines = fun f : Function => f.draft.lines := by
    funext f
    simp [Draft.lines, Function.draft, Function.lines]
  simp [Writer.text, Writer.lines, StackModule.text, StackModule.lines, extend, initial, withCurrent,
    current, Draft.initial, Draft.lines, entryLines, Function.comp_def, hlines]

/-- Reading `code` in the state `w` ends in the state `w'`. -/
def Reads (code : List Instr → List Instr) (w w' : Writer) : Prop :=
  ∀ rest, (code rest).foldlM instr w = rest.foldlM instr w'

theorem Reads.instr {i : Instr} (h : w.instr i = .ok w') : Reads (i :: ·) w w' := by
  intro rest
  rw [List.foldlM_cons, h]
  rfl

theorem Reads.trans {code code' : List Instr → List Instr} (h : Reads code w w')
    (h' : Reads code' w' w'') : Reads (fun rest => code (code' rest)) w w'' :=
  fun rest => (h _).trans (h' rest)

end Writer

end PLZero.StackModule
