import PLZero.Proofs.Postfix
import PLZero.Proofs.ScriptLabels

/-! Script lines and the instructions that they are there for. Every declaration, statement, procedure head, branch
with a condition and loop of the code has one line in the script, and notes its source line there; no other line has
a note. So a line map leads each source line to the first script line that was written for an instruction of it. -/

namespace PLZero

namespace Op

/-- The instructions that have a line of their own in a script. -/
def isShown : Op → Bool
  | .declare _ | .const _ _ | .store _ | .call _ | .read _ | .write | .procedureStart _ | .ifMark | .elseIf | .whileMark
  | .forTo _ => true
  | _ => false

end Op

/-- Code in which every `WHILE` has one `DO`, with nothing but a condition between them; `waits` is whether that of the
last `WHILE` is still to come. -/
inductive Tested : Bool → List Op → Prop
  | nil : Tested false []
  | operand {waits : Bool} {op : Op} {rest : List Op} (hop : op.isOperand = true) (h : Tested waits rest) :
    Tested waits (op :: rest)
  | start {rest : List Op} (h : Tested true rest) : Tested false (.whileMark :: rest)
  | test {rest : List Op} (h : Tested false rest) : Tested true (.doMark :: rest)
  | other {op : Op} {rest : List Op} (hop : op ≠ .whileMark ∧ op ≠ .doMark) (h : Tested false rest) :
    Tested false (op :: rest)

section Code

variable {waits : Bool} {rest : List Instr} {env : Constants}

theorem Expr.tested (e : Expr) (h : Tested waits (rest.map (·.op))) :
    Tested waits ((e.codeThen rest).map (·.op)) := by
  induction e generalizing rest with
  | binary op left right line ihl ihr => exact ihl (ihr (.operand rfl h))
  | literal value line => exact .operand rfl h
  | ident name line => exact .operand rfl h

theorem Layout.tested {S : Prop} {outer : List Layer} {l : Layer} {es : List Expr} {ds : List Declared}
    {code : List Instr} (h : Layout S outer l es ds code) : Tested false (code.map (·.op)) := by
  induction h with
  | nil => exact .nil
  | alone hop _ h ih => exact .other (by constructor <;> (rintro rfl; cases hop)) ih
  | taking hop _ _ h ih =>
    exact Expr.tested _ (.other (by constructor <;> (rintro rfl; cases hop)) ih)
  | test _ h ih => exact .start (Expr.tested _ (.test ih))
  | count _ _ _ h ih => exact Expr.tested _ (.other (by simp) (Expr.tested _ (.other (by simp) ih)))
  | @declare _ _ _ _ d env _ _ h ih =>
    cases d with
    | const name init line => exact .other (by simp) ih
    | var name init line =>
      cases init with
      | none => exact .other (by simp) ih
      | some init => exact .other (by simp) (.operand rfl (.other (by simp) ih))
  | enter _ h ih | leave h ih => exact .other (by simp) ih

theorem Program.tested (p : Program) : Tested false (p.code.map (·.op)) := p.layout.tested

end Code

namespace Script

variable {seen : List Instr}

/-- The content of a script line that shows an instruction. -/
inductive Shows : Op → Content → Prop
  | declare (name : String) : Shows (.declare name) (.statement (.letVar (nameOf name)))
  | const (name : String) (value : Int32) : Shows (.const name value) (.statement (.constant (nameOf name) value))
  | store (name : String) (value : Folded) : Shows (.store name) (.statement (.assign (nameOf name) value))
  | call (name : String) : Shows (.call name) (.statement (.call (nameOf name)))
  | read (name : String) : Shows (.read name) (.statement (.read (nameOf name)))
  | write (value : Folded) : Shows .write (.statement (.write value))
  | procedureStart (name : String) : Shows (.procedureStart name) (.head (nameOf name))
  | ifMark (cond : Folded) : Shows .ifMark (.statement (.openIf cond))
  | elseIf (cond : Folded) : Shows .elseIf (.statement (.elseIf cond))
  | whileMark (cond : Folded) : Shows .whileMark (.statement (.openWhile cond))
  | forTo (name counter : String) (start bound : Folded) :
    Shows (.forTo name) (.statement (.openFor counter start bound))

theorem Shows.isShown {op : Op} {content : Content} (h : Shows op content) : op.isShown = true := by
  cases h <;> rfl

/-- A line without its indentation. -/
abbrev Mark := Content × Option Nat

def Row.mark (r : Row) : Mark := (r.content, r.note)

def Function.marks (f : Function) : Multiset Mark := ↑(f.rows.map Row.mark)

def marksAll (fs : List Function) : Multiset Mark := ↑((Function.rowsAll fs).map Row.mark)

def Draft.marks (d : Draft) : Multiset Mark := d.function.marks

theorem marksAll_append (fs fs' : List Function) : marksAll (fs ++ fs') = marksAll fs + marksAll fs' := by
  induction fs with
  | nil => simp [marksAll, Function.rowsAll]
  | cons f fs ih =>
    simp only [marksAll, List.cons_append, Function.rowsAll, List.map_append, ← Multiset.coe_add] at ih ⊢
    rw [ih, add_assoc]

theorem marksAll_singleton (f : Function) : marksAll [f] = f.marks := by
  simp [marksAll, Function.rowsAll, Function.marks]

theorem Draft.marks_eq (d : Draft) : d.marks = {(.head d.name, d.note)} + marksAll d.nested.toList +
    ↑(d.body.toList.map fun l => l.row.mark) + {(.tail, none)} := by
  have hdeeper : Row.mark ∘ Row.deeper = Row.mark := rfl
  have hrow : Row.mark ∘ Line.row = fun l => l.row.mark := rfl
  simp only [marks, function, Function.marks, Function.rows, List.map_append, List.map_cons, List.map_map, List.map_nil,
    hdeeper, hrow, ← Multiset.coe_add, ← Multiset.cons_coe, Multiset.coe_nil]
  rfl

theorem Draft.marks_add (d : Draft) (s : Statement) (note : Option Nat) :
    (d.add s note).marks = d.marks + ↑([(.statement s, note)] : List Mark) := by
  rw [marks_eq, marks_eq]
  simp only [add, Array.toList_push, List.map_append, List.map_cons, List.map_nil, ← Multiset.coe_add]
  change _ + (_ + (([(.statement s, note)] : List Mark) : Multiset Mark)) + _ = _
  ac_rfl

/-- A line notes the source line of an instruction that it shows, or it is one of those that are there for none. -/
structure Fits (seen : List Instr) (m : Mark) : Prop where
  unnoted : m.2 = none → m.1 ∈ Content.unnoted
  shows : ∀ line, m.2 = some line → ∃ i ∈ seen, i.line = line ∧ Shows i.op m.1

theorem Fits.of_shows {i : Instr} {c : Content} (hi : i ∈ seen) (hs : Shows i.op c) :
    Fits seen (c, some i.line) :=
  ⟨by simp, fun _ hline => ⟨i, hi, Option.some.inj hline, hs⟩⟩

theorem Fits.of_unnoted {c : Content} (hc : c ∈ Content.unnoted) : Fits seen (c, none) :=
  ⟨fun _ => hc, by simp⟩

theorem Fits.mono {seen' : List Instr} {m : Mark} (h : Fits seen m) (hsub : seen ⊆ seen') : Fits seen' m := by
  refine ⟨h.unnoted, ?_⟩
  intro line hline
  obtain ⟨i, hi, hshows⟩ := h.shows line hline
  exact ⟨i, hsub hi, hshows⟩

namespace Emitter

/-- The lines written so far, those of functions that are not finished included. -/
def marks (e : Emitter) : Multiset Mark :=
  ↑(e.globals.toList.map fun l => l.row.mark) + marksAll e.functions.toList + e.current.marks +
    (e.around.map Draft.marks).sum

variable {e e' : Emitter} {i : Instr} {added : List Mark}

theorem marks_of_current (hg : e'.globals = e.globals) (hf : e'.functions = e.functions) (ha : e'.around = e.around)
    (hc : e'.current.marks = e.current.marks + ↑added) : e'.marks = e.marks + ↑added := by
  rw [marks, marks, hg, hf, ha, hc]
  ac_rfl

theorem marks_add (e : Emitter) (s : Statement) (line : Nat) :
    (e.add s line).marks = e.marks + ↑([(.statement s, some line)] : List Mark) :=
  marks_of_current rfl rfl rfl (Draft.marks_add ..)

theorem marks_addOpen (e : Emitter) (s : Statement) (line : Nat) :
    (e.addOpen s line).marks = e.marks + ↑([(.statement s, some line)] : List Mark) :=
  marks_of_current rfl rfl rfl (Draft.marks_add e.current s (some line))

theorem marks_of_pop {r : Folded × Emitter} (h : e.pop i = .ok r) : r.2.marks = e.marks := by
  obtain ⟨stack, -, heq⟩ := of_pop h
  rw [heq]
  rfl

theorem marks_markers {markers : Markers Frame} (h : markers.filterMap (·.frame.procedure?) = e.around) :
    marks { e with markers } = e.marks := by
  rw [marks, marks, around, h]

/-- What an instruction adds to a script: a line that notes and shows it, if it has one, and lines without a note. -/
structure Adds (i : Instr) (added : List Mark) (e e' : Emitter) : Prop where
  marks : e'.marks = e.marks + ↑added
  notes : added.filterMap Prod.snd = if i.op.isShown then [i.line] else []
  fits : ∀ m ∈ added, Fits [i] m

namespace Adds

theorem nothing (hm : e'.marks = e.marks) (hop : i.op.isShown = false) : Adds i [] e e' :=
  ⟨by simp [hm], by simp [hop], by simp⟩

theorem shown {c : Content} (hm : e'.marks = e.marks + ↑([(c, some i.line)] : List Mark)) (hs : Shows i.op c) :
    Adds i [(c, some i.line)] e e' := by
  refine ⟨hm, by simp [hs.isShown], ?_⟩
  intro m hmem
  rw [List.mem_singleton.mp hmem]
  exact .of_shows List.mem_cons_self hs

theorem unnoted {c : Content} (hm : e'.marks = e.marks + ↑([(c, none)] : List Mark)) (hop : i.op.isShown = false)
    (hc : c ∈ Content.unnoted) : Adds i [(c, none)] e e' := by
  refine ⟨hm, by simp [hop], ?_⟩
  intro m hmem
  rw [List.mem_singleton.mp hmem]
  exact .of_unnoted hc

theorem closed {β : Type} {select : Frame → Option β} {r : β × Markers Frame} (hr : e.markers.pop i select = .ok r)
    (hselect : ∀ f b, select f = some b → f.procedure? = none) (hop : i.op.isShown = false) :
    Adds i [(.statement .close, none)] e { e.close with markers := r.2 } := by
  have hadd := Draft.marks_add e.current.shallower .close none
  exact unnoted (marks_of_current rfl rfl (around_of_pop hr hselect) hadd) hop (by decide)

theorem declare {name : String} {s : Statement} (hs : Shows i.op (.statement s)) :
    Adds i [(.statement s, some i.line)] e (e.declare name s i) := by
  refine shown ?_ hs
  simp only [Emitter.declare]
  split
  · exact marks_add ..
  · simp only [Emitter.marks, Emitter.around, Array.toList_push, List.map_append, ← Multiset.coe_add]
    change _ + (([(.statement s, some i.line)] : List Mark) : Multiset Mark) + _ + _ + _ = _
    ac_rfl

theorem startProcedure {name : String} (hop : i.op = .procedureStart name) :
    Adds i [(.head (nameOf name), some i.line), (.tail, none)] e (e.startProcedure name i) := by
  refine ⟨?_, by simp [hop, Op.isShown], ?_⟩
  · have hstart : (Draft.start (nameOf name) (some i.line)).marks =
        ↑([(.head (nameOf name), some i.line), (.tail, none)] : List Mark) := rfl
    have haround : (e.startProcedure name i).around = e.current :: e.around := rfl
    rw [Emitter.marks, Emitter.marks, haround, List.map_cons, List.sum_cons]
    simp only [Emitter.startProcedure, hstart]
    ac_rfl
  · intro m hmem
    rcases List.mem_pair.mp hmem with rfl | rfl
    · exact .of_shows List.mem_cons_self (hop ▸ .procedureStart name)
    · exact .of_unnoted (by decide)

theorem endProcedure (h : e.endProcedure i = .ok e') (hop : i.op.isShown = false) : Adds i [] e e' := by
  obtain ⟨⟨outer, markers⟩, hr, h⟩ := ok_of_bind h
  obtain ⟨o, hm, ho⟩ := Markers.of_pop hr
  simp only at hm ho h
  have haround : e.around = outer :: markers.filterMap (·.frame.procedure?) := by
    simp [Emitter.around, hm, ho]
  have hmarks : e.marks = ↑(e.globals.toList.map fun l => l.row.mark) + marksAll e.functions.toList +
      e.current.marks + (outer.marks + ((markers.filterMap (·.frame.procedure?)).map Draft.marks).sum) := by
    rw [Emitter.marks, haround, List.map_cons, List.sum_cons]
  have hfinished : e.current.function.marks = e.current.marks := rfl
  refine nothing ?_ hop
  rw [hmarks]
  -- The finished function goes into the one around it, or stands beside the others.
  split at h
  · cases h
    have houter : Draft.marks { outer with nested := outer.nested.push e.current.function } =
        outer.marks + e.current.marks := by
      rw [Draft.marks_eq, Draft.marks_eq outer]
      simp only [Array.toList_push, marksAll_append, marksAll_singleton, hfinished]
      ac_rfl
    simp only [Emitter.marks, Emitter.around, houter]
    ac_rfl
  · cases h
    simp only [Emitter.marks, Emitter.around, Array.toList_push, marksAll_append, marksAll_singleton, hfinished]
    ac_rfl

/-- Apart from the marks of a loop with a condition, an instruction adds the line that shows it. -/
theorem instr (h : e.instr i = .ok e') (hop : i.op ≠ .whileMark ∧ i.op ≠ .doMark) :
    ∃ added, Adds i added e e' := by
  obtain ⟨op, line⟩ := i
  cases op with
  | declare name =>
    cases h
    exact ⟨_, declare (.declare name)⟩
  | const name value =>
    cases h
    exact ⟨_, declare (.const name value)⟩
  | load name =>
    obtain ⟨id, -, h⟩ := ok_of_bind h
    cases h
    exact ⟨_, nothing rfl rfl⟩
  | push value =>
    cases h
    exact ⟨_, nothing rfl rfl⟩
  | oper op =>
    obtain ⟨⟨right, e1⟩, h1, h⟩ := ok_of_bind h
    obtain ⟨⟨left, e2⟩, h2, h⟩ := ok_of_bind h
    cases h
    exact ⟨_, nothing ((marks_of_pop h2).trans (marks_of_pop h1)) rfl⟩
  | store name =>
    obtain ⟨id, hid, h⟩ := ok_of_bind h
    obtain ⟨r, hr, h⟩ := ok_of_bind h
    cases h
    cases of_binding hid
    exact ⟨_, shown (by rw [marks_add, marks_of_pop hr]) (.store name r.1)⟩
  | call name =>
    obtain ⟨_, -, h⟩ := ok_of_bind h
    cases h
    exact ⟨_, shown (marks_add ..) (.call name)⟩
  | read name =>
    obtain ⟨id, hid, h⟩ := ok_of_bind h
    cases h
    cases of_binding hid
    exact ⟨_, shown (marks_add ..) (.read name)⟩
  | write =>
    obtain ⟨r, hr, h⟩ := ok_of_bind h
    cases h
    exact ⟨_, shown (by rw [marks_add, marks_of_pop hr]) (.write r.1)⟩
  | procedureStart name =>
    cases h
    exact ⟨_, startProcedure rfl⟩
  | procedureEnd name => exact ⟨_, endProcedure h rfl⟩
  | ifMark =>
    obtain ⟨r, hr, h⟩ := ok_of_bind h
    cases h
    refine ⟨_, shown ?_ (.ifMark r.1)⟩
    rw [← marks_of_pop hr]
    exact marks_of_current rfl rfl rfl (Draft.marks_add r.2.current _ _)
  | elseIf =>
    obtain ⟨_, -, h⟩ := ok_of_bind h
    obtain ⟨r, hr, h⟩ := ok_of_bind h
    cases h
    refine ⟨_, shown ?_ (.elseIf r.1)⟩
    rw [marks_addOpen, ← marks_of_pop hr]
    rfl
  | elseMark =>
    obtain ⟨_, hcheck, h⟩ := ok_of_bind h
    obtain ⟨_, htop, -⟩ := ok_of_bind hcheck
    cases h
    have hadd := Draft.marks_add e.current.shallower .openElse none
    exact ⟨_, unnoted (c := .statement .openElse) (marks_of_current rfl rfl (around_replace htop) hadd) rfl (by decide)⟩
  | endIf =>
    obtain ⟨r, hr, h⟩ := ok_of_bind h
    cases h
    exact ⟨_, closed hr (fun f b hb => by cases f <;> first | rfl | cases hb) rfl⟩
  | whileMark => exact absurd rfl hop.1
  | doMark => exact absurd rfl hop.2
  | endWhile =>
    obtain ⟨r, hr, h⟩ := ok_of_bind h
    cases h
    exact ⟨_, closed hr (fun f b hb => by cases f <;> first | rfl | cases hb) rfl⟩
  | forInit name =>
    obtain ⟨id, -, h⟩ := ok_of_bind h
    obtain ⟨r, hr, h⟩ := ok_of_bind h
    cases h
    exact ⟨_, nothing ((marks_markers rfl).trans (marks_of_pop hr)) rfl⟩
  | forTo name =>
    obtain ⟨r, hr, h⟩ := ok_of_bind h
    obtain ⟨⟨counter, start⟩, -, h⟩ := ok_of_bind h
    cases h
    exact ⟨_, shown (by rw [marks_addOpen, marks_of_pop hr]) (.forTo name counter start r.1)⟩
  | endFor name =>
    obtain ⟨r, hr, h⟩ := ok_of_bind h
    cases h
    exact ⟨_, closed hr (fun f b hb => by cases f <;> first | rfl | cases hb) rfl⟩

end Adds

/-- The line of the loop whose condition is read, if there is one. -/
def untested (e : Emitter) (waits : Bool) : List Nat :=
  if waits then (e.markers.head?.bind (·.frame.while?)).toList else []

/-- What is written notes the instructions so far that have a line, each once, but for the loop whose condition is
read. -/
structure Noted (e : Emitter) (waits : Bool) (seen : List Instr) : Prop where
  notes : e.marks.filterMap Prod.snd + ↑(e.untested waits) = ↑((seen.filter (·.op.isShown)).map (·.line))
  untested : ∀ line ∈ e.untested waits, ⟨.whileMark, line⟩ ∈ seen
  fits : ∀ m ∈ e.marks, Fits seen m

namespace Noted

variable {waits : Bool}

theorem initial : Noted .initial false [] := by
  have hmarks : Emitter.initial.marks = ↑([(.head entryName, none), (.tail, none)] : List Mark) := rfl
  refine ⟨by rw [hmarks]; rfl, by simp [Emitter.untested], ?_⟩
  rw [hmarks]
  intro m hm
  rcases List.mem_pair.mp hm with rfl | rfl
  · exact .of_unnoted (by decide)
  · exact .of_unnoted (by decide)

theorem fits_add (h : e.Noted waits seen) (hm : e'.marks = e.marks + ↑added)
    (hadded : ∀ m ∈ added, Fits (seen ++ [i]) m) : ∀ m ∈ e'.marks, Fits (seen ++ [i]) m := by
  intro m hmem
  rw [hm, Multiset.mem_add] at hmem
  rcases hmem with hmem | hmem
  · exact (h.fits m hmem).mono (List.subset_append_left _ _)
  · exact hadded m hmem

theorem add (h : e.Noted waits seen) (ha : Adds i added e e') (hw : e'.untested waits = e.untested waits) :
    e'.Noted waits (seen ++ [i]) := by
  refine ⟨?_, ?_, h.fits_add ha.marks fun m hm => (ha.fits m hm).mono (List.subset_append_right _ _)⟩
  · have hlines : ([i].filter (·.op.isShown)).map (·.line) = if i.op.isShown then [i.line] else [] := by
      cases hop : i.op.isShown <;> simp [hop]
    rw [ha.marks, Multiset.filterMap_add, Multiset.filterMap_coe, ha.notes, hw, List.filter_append, List.map_append,
      hlines, ← Multiset.coe_add, ← h.notes]
    ac_rfl
  · intro line hline
    rw [hw] at hline
    exact List.mem_append_left _ (h.untested line hline)

theorem start (h : e.Noted false seen) (line : Nat) :
    (e.startWhile ⟨.whileMark, line⟩).Noted true (seen ++ [⟨.whileMark, line⟩]) := by
  have hmarks : (e.startWhile ⟨.whileMark, line⟩).marks = e.marks + ↑([] : List Mark) := by
    rw [Multiset.coe_nil, add_zero]
    exact marks_markers rfl
  have hwaiting : (e.startWhile ⟨.whileMark, line⟩).untested true = [line] := rfl
  refine ⟨?_, ?_, h.fits_add hmarks (by simp)⟩
  · have hnotes := h.notes
    simp only [Emitter.untested, Bool.false_eq_true, if_false, Multiset.coe_nil, add_zero] at hnotes
    rw [hmarks, Multiset.coe_nil, add_zero, hnotes, hwaiting, List.filter_append, List.map_append, ← Multiset.coe_add]
    rfl
  · rw [hwaiting]
    simp

theorem test (h : e.Noted true seen) (hop : i.op = .doMark) (he : e.testWhile i = .ok e') :
    e'.Noted false (seen ++ [i]) := by
  obtain ⟨line, htop, he⟩ := ok_of_bind he
  obtain ⟨r, hr, he⟩ := ok_of_bind he
  cases he
  obtain ⟨o, rest, hm, ho⟩ := Markers.of_top htop
  have hwaiting : e.untested true = [line] := by
    simp [Emitter.untested, hm, ho]
  have hmarks : (r.2.addOpen (.openWhile r.1) line).marks =
      e.marks + ↑([(.statement (.openWhile r.1), some line)] : List Mark) := by
    rw [marks_addOpen, marks_of_pop hr]
  refine ⟨?_, by simp [Emitter.untested], h.fits_add hmarks ?_⟩
  · have hnotes := h.notes
    rw [hwaiting] at hnotes
    have hnone : [i].filter (·.op.isShown) = [] := by simp [hop, Op.isShown]
    rw [hmarks, Multiset.filterMap_add, List.filter_append, hnone, List.append_nil, ← hnotes, add_assoc]
    rfl
  · intro m hmem
    rw [List.mem_singleton.mp hmem]
    have hseen := h.untested line (by simp [hwaiting])
    exact .of_shows (List.mem_append_left _ hseen) (.whileMark r.1)

theorem markers_of_operand (hop : i.op.isOperand = true) (he : e.instr i = .ok e') : e'.markers = e.markers := by
  obtain ⟨op, line⟩ := i
  cases op with
  | load name =>
    obtain ⟨id, -, he⟩ := ok_of_bind he
    cases he
    rfl
  | push value =>
    cases he
    rfl
  | oper op =>
    obtain ⟨⟨right, e1⟩, h1, he⟩ := ok_of_bind he
    obtain ⟨⟨left, e2⟩, h2, he⟩ := ok_of_bind he
    cases he
    obtain ⟨_, -, rfl⟩ := of_pop h1
    obtain ⟨_, -, rfl⟩ := of_pop h2
    rfl
  | _ => cases hop

theorem run {code : List Instr} (h : e.Noted waits seen) (ht : Tested waits (code.map (·.op)))
    (he : code.foldlM Emitter.instr e = .ok e') : e'.Noted false (seen ++ code) := by
  induction code generalizing e waits seen with
  | nil =>
    cases he
    cases ht
    rwa [List.append_nil]
  | cons i code ih =>
    obtain ⟨op, line⟩ := i
    obtain ⟨e1, h1, hrest⟩ := ok_of_bind he
    rw [List.append_cons]
    cases ht with
    | operand hop ht =>
      have hloops : op ≠ .whileMark ∧ op ≠ .doMark := by
        constructor
        · rintro rfl
          cases hop
        · rintro rfl
          cases hop
      obtain ⟨added, ha⟩ := Adds.instr h1 hloops
      exact ih (h.add ha (by rw [Emitter.untested, markers_of_operand hop h1]; rfl)) ht hrest
    | start ht =>
      cases h1
      exact ih (h.start line) ht hrest
    | test ht => exact ih (h.test rfl h1) ht hrest
    | other hop ht =>
      obtain ⟨added, ha⟩ := Adds.instr h1 hop
      exact ih (h.add ha rfl) ht hrest

end Noted

end Emitter

/-- The notes of a script, and what its lines show. -/
theorem notes_of_code {code : List Instr} {script : Script} (ht : Tested false (code.map (·.op)))
    (h : ofCode code = .ok script) :
    (script.rows.filterMap (·.note)).Perm ((code.filter (·.op.isShown)).map (·.line)) ∧
      ∀ r ∈ script.rows, Fits code r.mark := by
  obtain ⟨e, he, h⟩ := ok_of_bind h
  obtain ⟨_, hfinish, h⟩ := ok_of_bind h
  cases h
  have hclosed := Markers.of_finish hfinish
  have hnoted := Emitter.Noted.initial.run ht he
  rw [List.nil_append] at hnoted
  generalize hscript : (⟨e.globals.toList, e.functions.toList, e.current.function⟩ : Script) = script
  have hmarks : (script.rows.map Row.mark : Multiset Mark) = ↑([(.header, none)] : List Mark) + e.marks := by
    have haround : e.around = [] := by simp [Emitter.around, hclosed]
    have hfunctions := marksAll_append e.functions.toList [e.current.function]
    have hrows : script.rows.map Row.mark = [(.header, none)] ++ (e.globals.toList.map fun l => l.row.mark) ++
        (Function.rowsAll (e.functions.toList ++ [e.current.function])).map Row.mark := by
      rw [← hscript]
      simp [rows, Row.mark]
    rw [hrows, ← Multiset.coe_add, ← Multiset.coe_add, ← marksAll, hfunctions, marksAll_singleton, Emitter.marks,
      haround, List.map_nil, List.sum_nil, add_zero, Draft.marks]
    ac_rfl
  have hnotes : script.rows.filterMap (·.note) = (script.rows.map Row.mark).filterMap Prod.snd := by
    rw [List.filterMap_map]
    rfl
  constructor
  · have hheader : (↑([(.header, none)] : List Mark) : Multiset Mark).filterMap Prod.snd = 0 := rfl
    have huntested : e.untested false = [] := rfl
    rw [← Multiset.coe_eq_coe, ← hnoted.notes, hnotes, ← Multiset.filterMap_coe, hmarks, Multiset.filterMap_add,
      hheader, huntested, zero_add, Multiset.coe_nil, add_zero]
  · intro r hr
    have hmem : r.mark ∈ (script.rows.map Row.mark : Multiset Mark) := List.mem_map_of_mem hr
    rw [hmarks, Multiset.mem_add] at hmem
    rcases hmem with hmem | hmem
    · rw [List.mem_singleton.mp hmem]
      exact .of_unnoted (by decide)
    · exact hnoted.fits _ hmem

theorem filter_beq_some (note : Option Nat) (f : Nat → Nat) {line : Nat} (h : line < UInt64.size) :
    ((note.map f).filter (· < UInt64.size) == some line) = note.any fun k => f k == line := by
  rw [Bool.eq_iff_iff, beq_iff_eq, Option.filter_eq_some_iff, Option.map_eq_some_iff, Option.any_eq_true]
  simp [h]

/-- An instruction with a line has one line, and another one none. -/
theorem countP_note {code : List Instr} {marked : Script}
    (h : (marked.rows.filterMap (·.note)).Perm (((numbered code).filter (·.op.isShown)).map (·.line))) (k : Nat) :
    marked.rows.countP (·.note == some k) = if code[k]?.any (·.op.isShown) then 1 else 0 := by
  have hcount : marked.rows.countP (·.note == some k) = (marked.rows.filterMap (·.note)).count k := by
    rw [List.count_eq_countP, List.countP_filterMap]
    refine List.countP_congr fun r _ => ?_
    cases r.note <;> simp
  have hnodup : (((numbered code).filter (·.op.isShown)).map (·.line)).Nodup := by
    have hlines : ((numbered code).map (·.line)).Nodup := numbered_lines code ▸ List.nodup_range
    exact hlines.sublist (List.filter_sublist.map _)
  have hmem : k ∈ ((numbered code).filter (·.op.isShown)).map (·.line) ↔ code[k]?.any (·.op.isShown) = true := by
    rw [List.mem_map, Option.any_eq_true]
    constructor
    · rintro ⟨i, hi, rfl⟩
      obtain ⟨hi, hshown⟩ := List.mem_filter.mp hi
      obtain ⟨j, hj, hop⟩ := Option.map_eq_some_iff.mp (mem_numbered.mp hi)
      exact ⟨j, hj, hop ▸ hshown⟩
    · rintro ⟨i, hi, hshown⟩
      exact ⟨⟨i.op, k⟩, List.mem_filter.mpr ⟨mem_numbered.mpr (by rw [hi]; rfl), hshown⟩, rfl⟩
  rw [hcount, h.count_eq, hnodup.count]
  simp only [hmem]

end Script

/-- What the text of a script and the line map made from it have to do with the code. `marked` is the script of the same
code with the places of the instructions for their lines: there, the note of a line tells which instruction the line
was written for. -/
structure Script.Recovers (script : Script) (code : List Instr) (marked : Script) : Prop where
  /-- The two scripts have the same lines, apart from the notes. -/
  lines : Text.lines script.text.toList = marked.rows.map fun r => (r.relabel (lineAt code)).text.toList
  /-- A declaration, statement, procedure head, guard or loop has one line, another instruction none. -/
  once : ∀ k, marked.rows.countP (·.note == some k) = if code[k]?.any (·.op.isShown) then 1 else 0
  shows : ∀ r ∈ marked.rows, ∀ k, r.note = some k → ∃ i, code[k]? = some i ∧ Shows i.op r.content
  /-- The other lines are the header, closing braces, else branches and the head of the entry function. -/
  others : ∀ r ∈ marked.rows, r.note = none → r.content ∈ Content.unnoted
  sources : ∀ line, line ∈ (LineMap.ofScript script.text).entries.map (·.source) ↔
    line < UInt64.size ∧ ∃ i ∈ code, i.op.isShown = true ∧ i.line = line
  scriptLine : ∀ line < UInt64.size, (LineMap.ofScript script.text).scriptLine line =
    (marked.rows.findIdx? fun r => r.note.any fun k => lineAt code k == line).map (· + 1)
  entries : ∀ entry ∈ (LineMap.ofScript script.text).entries, ∃ r k, marked.rows[entry.script - 1]? = some r ∧
    r.note = some k ∧ lineAt code k = entry.source

namespace Program

/-- The line map of a script leads back to the source line of every instruction that has a line there. -/
theorem lineMap_recovers {source : String} {p : Program} {t : Table} (hp : Program.ofSource source = .ok p)
    (ht : p.analyze = .ok t) : ∃ script marked, Script.ofCode p.code = .ok script ∧
      Script.ofCode (numbered p.code) = .ok marked ∧ script.Recovers p.code marked := by
  have hscoped := Program.scoped_of_source hp ht
  have hfine := p.fine hscoped
  obtain ⟨script, hscript⟩ := p.scripts hscoped
  obtain ⟨marked, hmarked, hrelabel⟩ := Script.ofCode_numbered hscript
  obtain ⟨hplaces, hfits⟩ := Script.notes_of_code ((numbered_ops p.code).symm ▸ p.tested) hmarked
  obtain ⟨hlines, hfits'⟩ := Script.notes_of_code p.tested hscript
  have hnames := Script.oneLine_names hfine hscript
  have hrows : script.rows = marked.rows.map (Script.Row.relabel (lineAt p.code)) := by
    rw [hrelabel, Script.rows_relabel]
  have hnotes := Script.notes_text hnames fun r hr => (hfits' r hr).unnoted
  refine ⟨script, marked, hscript, hmarked, ?_, Script.countP_note hplaces, ?_, fun r hr => (hfits r hr).unnoted, ?_, ?_,
    ?_⟩
  · rw [Script.lines_text script fun r hr => Script.Row.oneLine_text (hnames r hr), hrows, List.map_map]
    rfl
  · intro r hr k hk
    obtain ⟨i, hi, rfl, hshows⟩ := (hfits r hr).shows k hk
    obtain ⟨j, hj, hop⟩ := Option.map_eq_some_iff.mp (mem_numbered.mp hi)
    exact ⟨j, hj, hop ▸ hshows⟩
  · intro line
    have hmem := hlines.mem_iff (a := line)
    rw [List.mem_filterMap, List.mem_map] at hmem
    simp only [List.mem_filter, and_assoc] at hmem
    rw [LineMap.mem_sources, hnotes, List.mem_map, ← hmem]
    simp only [Option.filter_eq_some_iff, decide_eq_true_eq]
    constructor
    · rintro ⟨r, hr, hnote, hline⟩
      exact ⟨hline, r, hr, hnote⟩
    · rintro ⟨hline, r, hr, hnote⟩
      exact ⟨r, hr, hnote, hline⟩
  · intro line hline
    rw [LineMap.scriptLine_ofScript, hnotes, hrows, List.map_map, List.findIdx?_map]
    exact congrArg (fun test => (marked.rows.findIdx? test).map (· + 1))
      (funext fun r => Script.filter_beq_some r.note (lineAt p.code) hline)
  · intro entry hentry
    have hnoted := LineMap.noted_of_mem hentry
    rw [hnotes, hrows, List.map_map, List.getElem?_map] at hnoted
    obtain ⟨r, hr, hnote⟩ := Option.map_eq_some_iff.mp hnoted
    obtain ⟨hnote, -⟩ := Option.filter_eq_some_iff.mp hnote
    obtain ⟨k, hk, hline⟩ := Option.map_eq_some_iff.mp hnote
    exact ⟨r, k, hr, hk, hline⟩

/-- A nested procedure in a loop: its lines, for the source lines 4 and 5, come before that of the loop, for line 3. -/
theorem lineMap_recovers_nested : ∃ p t,
    Program.ofSource "var x = 2;\nprocedure p;\nwhile x > 0 do\nprocedure q;\nx := x - 1;\nq; endwhile;\np;" = .ok p ∧
      p.analyze = .ok t ∧ ∃ script marked, Script.ofCode p.code = .ok script ∧
        Script.ofCode (numbered p.code) = .ok marked ∧ script.Recovers p.code marked := by
  obtain ⟨p, t, hp, ht⟩ : ∃ p t,
      Program.ofSource "var x = 2;\nprocedure p;\nwhile x > 0 do\nprocedure q;\nx := x - 1;\nq; endwhile;\np;" =
        .ok p ∧ p.analyze = .ok t := ⟨_, _, rfl, rfl⟩
  exact ⟨p, t, hp, ht, lineMap_recovers hp ht⟩

end Program

end PLZero
