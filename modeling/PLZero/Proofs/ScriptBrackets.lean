import PLZero.Proofs.LoopTests
import PLZero.Proofs.ModuleBrackets
import PLZero.Proofs.ScriptScopes

/-! The braces of a script, and so the brackets of both target texts. -/

namespace PLZero

namespace Brackets

variable {b : Brackets} {d : Nat}

def afterAll (b : Brackets) (d : Nat) (lines : List (List Char)) : Option Nat := lines.foldlM b.after d

theorem afterAll_cons {line : List Char} {lines : List (List Char)} :
    b.afterAll d (line :: lines) = (b.after d line).bind (b.afterAll · lines) := by
  rw [afterAll, List.foldlM_cons]
  rfl

theorem after_append_eq {cs cs' : List Char} : b.after d (cs ++ cs') = (b.after d cs).bind (b.after · cs') := by
  rw [after, List.foldlM_append]
  rfl

theorem leading_append {s t : String} (h : b.leading s < s.toList.length) : b.leading (s ++ t) = b.leading s := by
  unfold leading at h ⊢
  rw [String.toList_append, List.takeWhile_append, if_neg (Nat.ne_of_lt h)]

theorem not_lineEnd : '\n' ≠ b.opening ∧ '\n' ≠ b.closing := by cases b <;> decide

theorem after_closeLine (acc : List Char) : b.after d (Text.closeLine acc) = b.after d acc.reverse := by
  unfold Text.closeLine
  split
  · next acc =>
    rw [List.reverse_cons, after_append_free]
    exact List.forall_mem_singleton.mpr (by cases b <;> decide)
  · rfl

/-- Cutting a text into lines drops no brackets. -/
theorem afterAll_linesFrom (acc cs : List Char) :
    b.afterAll d (Text.linesFrom acc cs) = b.after d (acc.reverse ++ cs) := by
  fun_induction Text.linesFrom acc cs generalizing d with
  | case1 => rfl
  | case2 acc _ =>
    rw [afterAll_cons, List.append_nil]
    cases b.after d acc.reverse <;> rfl
  | case3 acc rest ih =>
    rw [afterAll_cons, after_closeLine, after_append_eq]
    refine Option.bind_congr fun d' _ => ?_
    rw [ih, ← List.singleton_append, after_free_append (List.forall_mem_singleton.mpr not_lineEnd)]
    rfl
  | case4 acc c rest _ ih => simpa using ih

theorem afterAll_append {ls ls' : List (List Char)} :
    b.afterAll d (ls ++ ls') = (b.afterAll d ls).bind (b.afterAll · ls') := by
  rw [afterAll, List.foldlM_append]
  rfl

theorem afterAll_add {ls : List (List Char)} {d' : Nat} (h : b.afterAll d ls = some d') (k : Nat) :
    b.afterAll (d + k) ls = some (d' + k) := by
  induction ls generalizing d with
  | nil =>
    cases h
    rfl
  | cons l ls ih =>
    rw [afterAll_cons] at h ⊢
    obtain ⟨d1, hd1, h⟩ := Option.bind_eq_some_iff.mp h
    rw [after_add hd1 k, Option.bind_some]
    exact ih h

/-- Lines made of pieces that close what they open. -/
theorem afterAll_flatMap {α : Type} {xs : List α} {f : α → List (List Char)}
    (h : ∀ x ∈ xs, b.afterAll d (f x) = some d) : b.afterAll d (xs.flatMap f) = some d := by
  induction xs with
  | nil => rfl
  | cons x xs ih =>
    obtain ⟨hx, hxs⟩ := List.forall_mem_cons.mp h
    rw [List.flatMap_cons, afterAll_append, hx]
    exact ih hxs

theorem afterAll_map_congr {α : Type} {xs : List α} {f g : α → List Char}
    (h : ∀ x d, b.after d (f x) = b.after d (g x)) : b.afterAll d (xs.map f) = b.afterAll d (xs.map g) := by
  induction xs generalizing d with
  | nil => rfl
  | cons x xs ih =>
    rw [List.map_cons, List.map_cons, afterAll_cons, afterAll_cons, h]
    exact Option.bind_congr fun d' _ => ih

theorem Indented.afterAll {base d' : Nat} {ls : List (Nat × String)} (h : b.Indented base d ls d') :
    b.afterAll d (ls.map (·.2.toList)) = some d' := by
  induction h with
  | nil => rfl
  | cons _ hs _ ih =>
    rw [List.map_cons, afterAll_cons, hs, Option.bind_some]
    exact ih

theorem after_intercalate (ls : List String) :
    b.after d ("\n".intercalate ls).toList = b.afterAll d (ls.map String.toList) := by
  induction ls generalizing d with
  | nil => rfl
  | cons l ls ih =>
    cases ls with
    | nil =>
      have hone : ("\n".intercalate [l]).toList = l.toList := by simp
      rw [hone, List.map_cons, List.map_nil, afterAll_cons]
      cases b.after d l.toList <;> rfl
    | cons l' ls =>
      have hcons : ("\n".intercalate (l :: l' :: ls)).toList =
          l.toList ++ (['\n'] ++ ("\n".intercalate (l' :: ls)).toList) := by
        simp [String.toList_intercalate]
      rw [hcons, after_append_eq, List.map_cons, afterAll_cons]
      refine Option.bind_congr fun d' _ => ?_
      rw [after_free_append (List.forall_mem_singleton.mpr not_lineEnd), ih]

end Brackets

namespace Script

open Brackets

variable {name : String} {e : Folded}

theorem isFree_nameOf (h : braces.IsFree name) : braces.IsFree (nameOf name) := by
  unfold nameOf
  split
  · exact h.append (by decide)
  · exact h

theorem isFree_operation {op : BinOp} {left right : String} (hl : braces.IsFree left) (hr : braces.IsFree right) :
    braces.IsFree (operation op left right) := by
  cases op with
  | add | sub | div =>
    exact (((((IsFree.append (by decide) hl).append (by decide)).append (by decide)).append (by decide)).append
      hr).append (by decide)
  | mul => exact (((IsFree.append (by decide) hl).append (by decide)).append hr).append (by decide)
  | eq | ne => exact (hl.append (by decide)).append hr
  | lt | le | gt | ge => exact (((hl.append (by decide)).append (by decide)).append (by decide)).append hr

theorem isFree_intText (h : e.Over braces.IsFree) : braces.IsFree (intText e) := by
  induction e with
  | const v =>
    unfold intText
    split
    · exact (IsFree.append (by decide) (isFree_ofWord v)).append (by decide)
    · exact isFree_ofWord v
  | name n => exact h
  | binary op left right ihl ihr =>
    have htext : braces.IsFree (operation op (intText left) (intText right)) := isFree_operation (ihl h.1) (ihr h.2)
    simp only [intText]
    split
    · exact (IsFree.append (by decide) htext).append (by decide)
    · exact htext

theorem isFree_conditionText (h : e.Over braces.IsFree) : braces.IsFree (conditionText e) := by
  cases e with
  | const | name => exact isFree_intText h
  | binary op left right => exact isFree_operation (isFree_intText h.1) (isFree_intText h.2)

/-- What the text of a statement does to the braces: how many it closes, how many it leaves open. -/
def Statement.levels : Statement → Nat × Nat
  | .openIf _ | .openWhile _ | .openFor .. => (0, 1)
  | .elseIf _ | .openElse => (1, 1)
  | .close => (1, 0)
  | .letVar _ | .constant .. | .assign .. | .call _ | .read _ | .write _ => (0, 0)

/-- The names in a statement have this property. -/
def Statement.Over (P : String → Prop) : Statement → Prop
  | .letVar name | .constant name _ | .call name | .read name => P name
  | .assign name value => P name ∧ value.Over P
  | .write value | .openIf value | .elseIf value | .openWhile value => value.Over P
  | .openFor counter start bound => P counter ∧ start.Over P ∧ bound.Over P
  | .openElse | .close => True

namespace Statement

theorem turns {s : Statement} (h : s.Over braces.IsFree) : braces.Turns s.text s.levels.1 s.levels.2 := by
  delta Statement.text
  cases s with
  | letVar name => exact ((IsFree.append (by decide) h).append (by decide)).turns
  | constant name value =>
    exact ((((IsFree.append (by decide) h).append (by decide)).append (isFree_ofWord value)).append (by decide)).turns
  | assign name value => exact (((IsFree.append h.1 (by decide)).append (isFree_intText h.2)).append (by decide)).turns
  | call name => exact (IsFree.append h (by decide)).turns
  | read name => exact (((IsFree.append h (by decide)).append (by decide)).append (by decide)).turns
  | write value =>
    exact ((((by decide : braces.IsFree Hook.write.name).append (by decide)).append (isFree_intText h)).append
      (by decide)).turns
  | openIf cond | openWhile cond =>
    exact (IsFree.append (by decide) (isFree_conditionText h)).turns.trans (.of (x := 1) (by decide))
  | elseIf cond =>
    have hclose : braces.Turns "\x7d else if (" 1 0 := .of (by decide)
    exact (hclose.keep (isFree_conditionText h).turns).trans (.of (x := 1) (by decide))
  | openElse | close => exact .of (by decide)
  | openFor counter start bound =>
    obtain ⟨hc, hs, hb⟩ := h
    exact ((((((((((((by decide : braces.IsFree "for (").append hc).append (by decide)).append
      (isFree_intText hs)).append (by decide)).append hc).append (by decide)).append (isFree_intText hb)).append
        (by decide)).append hc).append (by decide)).append hc).turns.trans (.of (x := 1) (by decide))

theorem leading {s : Statement} (h : s.Over braces.IsFree) : braces.leading s.text = s.levels.1 := by
  cases s with
  | elseIf cond =>
    have hstart : braces.leading ("\x7d else if (" ++ (conditionText cond ++ ") \x7b")) = 1 :=
      (leading_append (by decide)).trans (by decide)
    rw [← String.append_assoc] at hstart
    exact hstart
  | openElse | close => decide
  | _ => exact Turns.leading (turns h)

end Statement

def Line.pair (l : Line) : Nat × String := (l.indent, l.statement.text)

theorem isFree_noteText (note : Option Nat) : braces.IsFree (noteText note) := by
  cases note with
  | none => exact (by decide : braces.IsFree "")
  | some line => exact (by decide : braces.IsFree " // ").append (isFree_ofNat line)

theorem after_lineText (l : Line) (d : Nat) : braces.after d l.text.toList = braces.after d l.pair.2.toList := by
  rw [Line.text, String.toList_append, after_append_free (isFree_noteText l.note), String.toList_append,
    after_free_append (StackModule.isFree_blanks _)]
  rfl

/-- A line that is moved keeps its brackets, also where it is cut. -/
theorem afterAll_deeper (line : String) (d : Nat) :
    braces.afterAll d ((deeper line).map String.toList) = braces.after d line.toList := by
  have hblanks : braces.IsFree "  " := by decide
  unfold deeper
  split
  · rw [List.map_map, afterAll_map_congr (g := id), List.map_id, Text.lines, afterAll_linesFrom, List.reverse_nil,
      List.nil_append, after_append_free (List.forall_mem_singleton.mpr not_lineEnd)]
    intro l d
    rw [Function.comp_apply, String.toList_append, after_free_append hblanks, String.toList_ofList]
    rfl
  · rw [List.map_singleton, afterAll_cons, String.toList_append, after_free_append hblanks]
    cases braces.after d line.toList <;> rfl

theorem afterAll_flatMap_deeper (ls : List String) (d : Nat) :
    braces.afterAll d ((ls.flatMap deeper).map String.toList) = braces.afterAll d (ls.map String.toList) := by
  induction ls generalizing d with
  | nil => rfl
  | cons l ls ih =>
    rw [List.flatMap_cons, List.map_append, afterAll_append, afterAll_deeper, List.map_cons, afterAll_cons]
    exact Option.bind_congr fun d' _ => ih d'

/-- Functions whose bodies are indented by the braces open in them, all of which they close. -/
inductive Function.Neat : Function → Prop
  | mk {f : Function} (hname : braces.IsFree f.name) (hbody : braces.Indented 1 0 (f.body.map Line.pair) 0)
    (hnested : ∀ g ∈ f.nested, g.Neat) : f.Neat

theorem nestedLines_eq (fs : List Function) :
    (Function.nestedLines fs).map String.toList = fs.flatMap fun f => (f.lines.flatMap deeper).map String.toList := by
  induction fs with
  | nil => rfl
  | cons f fs ih => rw [Function.nestedLines, List.map_append, ih, List.flatMap_cons]

theorem afterAll_nestedLines {fs : List Function}
    (h : ∀ f ∈ fs, braces.afterAll 0 (f.lines.map String.toList) = some 0) (d : Nat) :
    braces.afterAll d ((Function.nestedLines fs).map String.toList) = some d := by
  rw [nestedLines_eq]
  refine afterAll_flatMap fun f hf => ?_
  rw [afterAll_flatMap_deeper, ← Nat.zero_add d]
  exact afterAll_add (h f hf) d

/-- A function closes the braces that it opens. -/
theorem Function.Neat.afterAll {f : Function} (h : f.Neat) :
    braces.afterAll 0 (f.lines.map String.toList) = some 0 := by
  induction h with
  | @mk f hname hbody hnested ih =>
    obtain ⟨name, note, nested, body⟩ := f
    have hheader : braces.Turns ("function " ++ name ++ "() \x7b" ++ noteText note) 0 1 :=
      ((IsFree.append (by decide) hname).turns.trans (.of (x := 1) (by decide))).keep (isFree_noteText note).turns
    have hlines : braces.afterAll 0 (body.map (String.toList ∘ Line.text)) = some 0 := by
      have hpairs := hbody.afterAll
      rw [List.map_map] at hpairs
      exact (afterAll_map_congr after_lineText).trans hpairs
    have hclose : braces.afterAll 1 [['\x7d']] = some 0 := by decide
    simp only [Function.lines, List.map_append, List.map_cons, List.map_map, List.cons_append]
    rw [afterAll_cons, hheader 0, Option.bind_some, afterAll_append, afterAll_append, afterAll_nestedLines ih,
      Option.bind_some, afterAll_add hlines 1]
    exact hclose

structure Draft.Neat (d : Draft) (depth : Nat) : Prop where
  name : braces.IsFree d.name
  nested : ∀ f ∈ d.nested.toList, f.Neat
  body : braces.Indented 1 0 (d.body.toList.map Line.pair) depth
  indent : d.indent = 1 + depth
  stack : ∀ v ∈ d.stack, v.Over braces.IsFree

namespace Draft.Neat

variable {d : Draft} {k : Nat} {s : Statement} {note : Option Nat}

theorem start (h : braces.IsFree name) (note : Option Nat) : (Draft.start name note).Neat 0 :=
  ⟨h, List.forall_mem_nil _, .nil, rfl, List.forall_mem_nil _⟩

/-- One more line, indented by the braces that it leaves alone. -/
theorem line (h : d.Neat (k + s.levels.1)) (hs : s.Over braces.IsFree) (note : Option Nat) :
    Neat { d with body := d.body.push ⟨1 + k, s, note⟩, indent := 1 + (k + s.levels.2) } (k + s.levels.2) := by
  refine ⟨h.name, h.nested, ?_, rfl, h.stack⟩
  rw [Array.toList_push, List.map_append]
  refine h.body.append (.cons ?_ (Statement.turns hs k) .nil)
  rw [Line.pair, Statement.leading hs, Nat.add_assoc]

theorem add (h : d.Neat k) (hs : s.Over braces.IsFree) (hl : s.levels = (0, 0)) : (d.add s note).Neat k := by
  have hline := line (k := k) (s := s) (by rw [hl]; exact h) hs note
  rw [hl] at hline
  rw [Draft.add, h.indent]
  simpa only [Nat.add_zero, ← h.indent] using hline

theorem addOpen (h : d.Neat k) (hs : s.Over braces.IsFree) (hl : s.levels = (0, 1)) :
    (d.add s note).deeper.Neat (k + 1) := by
  have hline := line (k := k) (s := s) (by rw [hl]; exact h) hs note
  rw [hl] at hline
  rw [Draft.deeper, Draft.add, h.indent]
  exact hline

theorem turn (h : d.Neat (k + 1)) (hs : s.Over braces.IsFree) (hl : s.levels = (1, 1)) :
    (d.shallower.add s note).deeper.Neat (k + 1) := by
  have hline := line (k := k) (s := s) (by rw [hl]; exact h) hs note
  have hindent : d.indent - 1 = 1 + k := by rw [h.indent]; omega
  rw [hl] at hline
  rw [Draft.deeper, Draft.add, Draft.shallower, hindent]
  exact hline

theorem close (h : d.Neat (k + 1)) : d.close.Neat k := by
  have hline := line (k := k) (s := .close) h trivial none
  have hindent : d.indent - 1 = 1 + k := by rw [h.indent]; omega
  rw [Draft.close, Draft.add, Draft.shallower, hindent]
  exact hline

theorem withStack {stack : List Folded} (h : d.Neat k) (hs : ∀ v ∈ stack, v.Over braces.IsFree) :
    Neat { d with stack } k :=
  ⟨h.name, h.nested, h.body, h.indent, hs⟩

theorem function (h : d.Neat 0) : d.function.Neat := .mk h.name h.body h.nested

end Draft.Neat

/-- How many braces the open constructs have opened in the innermost function: a conditional one, a loop one for each
of its tests. -/
def depth : Markers Opened → Nat
  | [] => 0
  | o :: rest =>
    if o.frame.IsOf .procedure then 0
    else (if o.frame.IsOf .conditional then 1 else o.frame.middles.length) + depth rest

def Frame.Neat (depth : Nat) : Frame → Prop
  | .procedure outer => outer.Neat depth
  | .forLoop counter start => braces.IsFree counter ∧ start.Over braces.IsFree
  | .branch _ | .whileLoop _ => True

namespace Frame

variable {f : Frame} {k : Nat}

theorem neat_of_conditional (h : f.kind = .conditional) : f.Neat k := by
  cases f with
  | branch => trivial
  | procedure | whileLoop | forLoop => cases h

theorem Neat.of_procedure? {outer : Draft} (hf : f.Neat k) (h : f.procedure? = some outer) : outer.Neat k := by
  cases f with
  | procedure d =>
    cases h
    exact hf
  | branch | whileLoop | forLoop => cases h

theorem Neat.of_for? {b : String × Folded} (hf : f.Neat k) (h : f.for? = some b) :
    braces.IsFree b.1 ∧ b.2.Over braces.IsFree := by
  cases f with
  | forLoop counter start =>
    cases h
    exact hf
  | procedure | branch | whileLoop => cases h

end Frame

/-- Open frames along with the constructs they are of. -/
inductive Stacked : Markers Frame → Markers Opened → Prop
  | nil : Stacked [] []
  | cons {o : OpenMarker Frame} {m : Markers Frame} {o' : OpenMarker Opened} {opened : Markers Opened}
    (hkind : o'.frame.IsOf o.frame.kind) (hf : o.frame.Neat (depth opened)) (h : Stacked m opened) :
    Stacked (o :: m) (o' :: opened)

section Depth

variable {o : OpenMarker Opened} {rest : Markers Opened} {i : Instr} {k : ControlKind}

theorem depth_procedure (h : o.frame.IsOf .procedure) : depth (o :: rest) = 0 := by rw [depth, if_pos h]

theorem depth_conditional (h : o.frame.IsOf .conditional) : depth (o :: rest) = depth rest + 1 := by
  have hother : ¬ o.frame.IsOf .procedure := fun h' => by cases h.symm.trans h'
  rw [depth, if_neg hother, if_pos h, Nat.add_comm]

theorem depth_loop (h : o.frame.IsOf k) (hk : k.isLoop = true) :
    depth (o :: rest) = depth rest + o.frame.middles.length := by
  have hother : ¬ o.frame.IsOf .procedure := fun h' => by
    cases h.symm.trans h'
    cases hk
  have hother' : ¬ o.frame.IsOf .conditional := fun h' => by
    cases h.symm.trans h'
    cases hk
  rw [depth, if_neg hother, if_neg hother', Nat.add_comm]

theorem depth_push_conditional (h : i.op.role = .opens .conditional) :
    depth (rest.push ⟨i, []⟩ i) = depth rest + 1 := depth_conditional h

theorem depth_push_loop (h : i.op.role = .opens k) (hk : k.isLoop = true) :
    depth (rest.push ⟨i, []⟩ i) = depth rest := depth_loop h hk

theorem depth_divided (h : o.frame.IsOf k) (hk : k.isLoop = true) :
    depth (o.divided i :: rest) = depth (o :: rest) + 1 := by
  rw [depth_loop (o := o.divided i) h hk, depth_loop h hk, OpenMarker.divided, List.length_append]
  rfl

end Depth

/-- An emitter that is as deep in braces as the open constructs say. -/
structure Emitter.Neat (e : Emitter) (opened : Markers Opened) : Prop where
  globals : ∀ l ∈ e.globals.toList, l.statement.Over braces.IsFree ∧ l.statement.levels = (0, 0)
  functions : ∀ f ∈ e.functions.toList, f.Neat
  current : e.current.Neat (depth opened)
  markers : Stacked e.markers opened

namespace Stacked

variable {o : OpenMarker Frame} {m : Markers Frame} {opened : Markers Opened}

theorem top (h : Stacked (o :: m) opened) :
    ∃ o' rest, opened = o' :: rest ∧ o'.frame.IsOf o.frame.kind ∧ o.frame.Neat (depth rest) ∧ Stacked m rest := by
  cases h with
  | cons hkind hf h => exact ⟨_, _, rfl, hkind, hf, h⟩

theorem of_nil (h : Stacked [] opened) : opened = [] := by
  cases h
  rfl

end Stacked

namespace Emitter.Neat

variable {e e' : Emitter} {opened : Markers Opened} {i : Instr}
  {s : Statement} {o : OpenMarker Frame} {m : Markers Frame} {r r' : MarkerRun}

theorem initial : Emitter.initial.Neat [] :=
  ⟨List.forall_mem_nil _, List.forall_mem_nil _, Draft.Neat.start (by decide) none, .nil⟩

theorem push {v : Folded} (h : e.Neat opened) (hv : v.Over braces.IsFree) : (e.push v).Neat opened :=
  ⟨h.globals, h.functions, h.current.withStack (List.forall_mem_cons.mpr ⟨hv, h.current.stack⟩), h.markers⟩

theorem pop {r : Folded × Emitter} (h : e.Neat opened) (hr : e.pop i = .ok r) :
    r.1.Over braces.IsFree ∧ r.2.Neat opened := by
  obtain ⟨stack, hstack, hr⟩ := of_pop hr
  have hall := h.current.stack
  rw [hstack] at hall
  obtain ⟨hv, hrest⟩ := List.forall_mem_cons.mp hall
  rw [hr]
  exact ⟨hv, h.globals, h.functions, h.current.withStack hrest, h.markers⟩

theorem add {line : Nat} (h : e.Neat opened) (hs : s.Over braces.IsFree)
    (hl : s.levels = (0, 0)) : (e.add s line).Neat opened :=
  ⟨h.globals, h.functions, h.current.add hs hl, h.markers⟩

theorem declare (h : e.Neat opened) (hs : s.Over braces.IsFree)
    (hl : s.levels = (0, 0)) : (e.declare name s i).Neat opened := by
  simp only [Emitter.declare]
  split
  · exact ⟨h.globals, h.functions, h.current.add hs hl, h.markers⟩
  · refine ⟨?_, h.functions, h.current, h.markers⟩
    rw [Array.toList_push]
    exact List.forall_mem_append.mpr ⟨h.globals, List.forall_mem_singleton.mpr ⟨hs, hl⟩⟩

theorem close {o' : OpenMarker Opened} {rest : Markers Opened}
    (h : e.Neat (o' :: rest)) (hm : e.markers = o :: m) (hdepth : depth (o' :: rest) = depth rest + 1) :
    Neat { e.close with markers := m } rest := by
  have hcurrent := h.current
  have hstacked := h.markers
  rw [hdepth] at hcurrent
  rw [hm] at hstacked
  cases hstacked with
  | cons _ _ hstacked => exact ⟨h.globals, h.functions, hcurrent.close, hstacked⟩

theorem closeLoop {β : Type} {select : Frame → Option β} {b : β × Markers Frame} {k : ControlKind}
    (h : e.Neat r.markers) (hb : e.markers.pop i select = .ok b) (hkind : ∀ {f x}, select f = some x → f.kind = k)
    (hk : k.isLoop = true) (hrole : i.op.role = .closes k) (hr : r.instr i = .ok r')
    (hclosed : ∀ c ∈ r'.closed, c.TestedOnce) : Neat { e.close with markers := b.2 } r'.markers := by
  obtain ⟨o, hm, ho⟩ := Markers.of_pop hb
  obtain ⟨o', rest, hopened, hof, -, -⟩ := (hm ▸ h.markers).top
  rw [hkind ho] at hof
  cases hr.symm.trans (MarkerRun.instr_closes hrole hopened hof)
  have honce : o'.frame.middles.length = 1 :=
    hclosed _ (List.mem_append_right _ (List.mem_singleton.mpr rfl)) ((Instr.opensLoop_eq hof).trans hk)
  rw [hopened] at h
  exact h.close hm (by rw [depth_loop hof hk, honce])

theorem testLoop {k : ControlKind}
    {line : Nat} (h : e.Neat r.markers) (hm : e.markers = o :: m) (hkind : o.frame.kind = k) (hk : k.isLoop = true)
    (hrole : i.op.role = .divides k) (hr : r.instr i = .ok r') (hs : s.Over braces.IsFree)
    (hl : s.levels = (0, 1)) : (e.addOpen s line).Neat r'.markers := by
  obtain ⟨o', rest, hopened, hof, hf, hstacked⟩ := (hm ▸ h.markers).top
  rw [hkind] at hof
  cases hr.symm.trans (MarkerRun.instr_divides hrole hopened hof)
  refine ⟨h.globals, h.functions, ?_, ?_⟩
  · rw [depth_divided hof hk, ← hopened]
    exact h.current.addOpen hs hl
  · simp only [Emitter.addOpen, hm]
    exact .cons (hkind ▸ hof) hf hstacked

theorem turn {o₂ : OpenMarker Frame}
    (h : e.Neat r.markers) (hm : e.markers = o :: m) (hkind : o.frame.kind = .conditional)
    (hkind₂ : o₂.frame.kind = .conditional) (hrole : i.op.role = .divides .conditional) (hr : r.instr i = .ok r')
    (hs : s.Over braces.IsFree) (hl : s.levels = (1, 1)) (note : Option Nat) :
    Neat { e with current := (e.current.shallower.add s note).deeper, markers := o₂ :: m } r'.markers := by
  obtain ⟨o', rest, hopened, hof, -, hstacked⟩ := (hm ▸ h.markers).top
  rw [hkind] at hof
  cases hr.symm.trans (MarkerRun.instr_divides hrole hopened hof)
  have hcurrent := h.current
  rw [hopened, depth_conditional hof] at hcurrent
  refine ⟨h.globals, h.functions, ?_, .cons (hkind₂ ▸ hof) (Frame.neat_of_conditional hkind₂) hstacked⟩
  rw [depth_conditional (o := o'.divided i) hof]
  exact hcurrent.turn hs hl

theorem endIf (h : e.Neat r.markers) (he : e.endIf i = .ok e')
    (hrole : i.op.role = .closes .conditional) (hr : r.instr i = .ok r') : e'.Neat r'.markers := by
  obtain ⟨b, hb, he⟩ := ok_of_bind he
  cases he
  obtain ⟨o, hm, ho⟩ := Markers.of_pop hb
  obtain ⟨o', rest, hopened, hof, -, -⟩ := (hm ▸ h.markers).top
  rw [Frame.kind_of_branch? ho] at hof
  cases hr.symm.trans (MarkerRun.instr_closes hrole hopened hof)
  rw [hopened] at h
  exact h.close hm (depth_conditional hof)

theorem endProcedure (h : e.Neat r.markers) (he : e.endProcedure i = .ok e')
    (hrole : i.op.role = .closes .procedure) (hr : r.instr i = .ok r') : e'.Neat r'.markers := by
  obtain ⟨⟨outer, m⟩, hb, he⟩ := ok_of_bind he
  obtain ⟨o, hm, ho⟩ := Markers.of_pop hb
  obtain ⟨o', rest, hopened, hof, hf, hstacked⟩ := (hm ▸ h.markers).top
  rw [Frame.kind_of_procedure? ho] at hof
  cases hr.symm.trans (MarkerRun.instr_closes hrole hopened hof)
  have hcurrent := h.current
  rw [hopened, depth_procedure hof] at hcurrent
  have houter : outer.Neat (depth rest) := hf.of_procedure? ho
  simp only at he
  split at he
  · cases he
    refine ⟨h.globals, h.functions, ⟨houter.name, ?_, houter.body, houter.indent, houter.stack⟩, hstacked⟩
    rw [Array.toList_push]
    exact List.forall_mem_append.mpr ⟨houter.nested, List.forall_mem_singleton.mpr hcurrent.function⟩
  · cases he
    refine ⟨h.globals, ?_, houter, hstacked⟩
    rw [Array.toList_push]
    exact List.forall_mem_append.mpr ⟨h.functions, List.forall_mem_singleton.mpr hcurrent.function⟩

theorem instr (h : e.Neat r.markers) (hi : ∀ name ∈ i.op.name?, braces.IsFree name)
    (he : e.instr i = .ok e') (hr : r.instr i = .ok r') (hclosed : ∀ c ∈ r'.closed, c.TestedOnce) :
    e'.Neat r'.markers := by
  obtain ⟨op, line⟩ := i
  cases op with
  | declare name =>
    cases he
    cases hr
    exact h.declare (s := .letVar _) (isFree_nameOf (hi name rfl)) rfl
  | const name value =>
    cases he
    cases hr
    exact h.declare (s := .constant _ value) (isFree_nameOf (hi name rfl)) rfl
  | load name =>
    obtain ⟨id, hid, he⟩ := ok_of_bind he
    cases of_binding hid
    cases he
    cases hr
    exact h.push (v := .name _) (isFree_nameOf (hi name rfl))
  | push value =>
    cases he
    cases hr
    exact h.push (v := .const value) trivial
  | oper op =>
    obtain ⟨right, hright, he⟩ := ok_of_bind he
    obtain ⟨left, hleft, he⟩ := ok_of_bind he
    cases he
    cases hr
    obtain ⟨hright, h⟩ := h.pop hright
    obtain ⟨hleft, h⟩ := h.pop hleft
    exact h.push (v := .binary op left.1 right.1) ⟨hleft, hright⟩
  | store name =>
    obtain ⟨id, hid, he⟩ := ok_of_bind he
    obtain ⟨value, hvalue, he⟩ := ok_of_bind he
    cases of_binding hid
    cases he
    cases hr
    obtain ⟨hv, h⟩ := h.pop hvalue
    exact h.add (s := .assign _ value.1) ⟨isFree_nameOf (hi name rfl), hv⟩ rfl
  | call name =>
    obtain ⟨u, -, he⟩ := ok_of_bind he
    cases he
    cases hr
    exact h.add (s := .call _) (isFree_nameOf (hi name rfl)) rfl
  | read name =>
    obtain ⟨id, hid, he⟩ := ok_of_bind he
    cases of_binding hid
    cases he
    cases hr
    exact h.add (s := .read _) (isFree_nameOf (hi name rfl)) rfl
  | write =>
    obtain ⟨value, hvalue, he⟩ := ok_of_bind he
    cases he
    cases hr
    obtain ⟨hv, h⟩ := h.pop hvalue
    exact h.add (s := .write value.1) hv rfl
  | procedureStart name =>
    cases he
    cases hr
    exact ⟨h.globals, h.functions, .start (isFree_nameOf (hi name rfl)) _, .cons rfl h.current h.markers⟩
  | procedureEnd name => exact h.endProcedure he rfl hr
  | ifMark =>
    obtain ⟨cond, hcond, he⟩ := ok_of_bind he
    cases he
    cases hr
    obtain ⟨hv, h⟩ := h.pop hcond
    refine ⟨h.globals, h.functions, ?_, .cons rfl trivial h.markers⟩
    rw [depth_push_conditional (i := ⟨.ifMark, line⟩) rfl]
    exact h.current.addOpen (s := .openIf cond.1) hv rfl
  | elseIf =>
    obtain ⟨u, hbranch, he⟩ := ok_of_bind he
    obtain ⟨cond, hcond, he⟩ := ok_of_bind he
    cases he
    obtain ⟨o, m, hm, hkind⟩ := of_checkBranch hbranch
    rw [← markers_of_pop hcond] at hm
    obtain ⟨hv, h⟩ := h.pop hcond
    have hturn := h.turn (s := .elseIf cond.1) hm hkind hkind rfl hr hv rfl (some line)
    rw [← hm] at hturn
    exact hturn
  | elseMark =>
    obtain ⟨u, hbranch, he⟩ := ok_of_bind he
    cases he
    obtain ⟨o, m, hm, hkind⟩ := of_checkBranch hbranch
    rw [hm]
    exact h.turn (s := .openElse) hm hkind rfl rfl hr trivial rfl none
  | endIf => exact h.endIf he rfl hr
  | whileMark =>
    cases he
    cases hr
    refine ⟨h.globals, h.functions, ?_, .cons rfl trivial h.markers⟩
    rw [depth_push_loop (i := ⟨.whileMark, line⟩) rfl rfl]
    exact h.current
  | doMark =>
    obtain ⟨start, htop, he⟩ := ok_of_bind he
    obtain ⟨cond, hcond, he⟩ := ok_of_bind he
    cases he
    rw [← markers_of_pop hcond] at htop
    obtain ⟨o, m, hm, ho⟩ := Markers.of_top htop
    obtain ⟨hv, h⟩ := h.pop hcond
    exact h.testLoop (s := .openWhile cond.1) hm (Frame.kind_of_while? ho) rfl rfl hr hv rfl
  | endWhile =>
    obtain ⟨b, hb, he⟩ := ok_of_bind he
    cases he
    exact h.closeLoop hb Frame.kind_of_while? rfl rfl hr hclosed
  | forInit name =>
    obtain ⟨counter, hcounter, he⟩ := ok_of_bind he
    obtain ⟨start, hstart, he⟩ := ok_of_bind he
    cases of_binding hcounter
    cases he
    cases hr
    obtain ⟨hv, h⟩ := h.pop hstart
    refine ⟨h.globals, h.functions, ?_, .cons rfl ⟨isFree_nameOf (hi name rfl), hv⟩ h.markers⟩
    rw [depth_push_loop (i := ⟨.forInit name, line⟩) rfl rfl]
    exact h.current
  | forTo name =>
    obtain ⟨bound, hbound, he⟩ := ok_of_bind he
    obtain ⟨⟨counter, start⟩, htop, he⟩ := ok_of_bind he
    cases he
    obtain ⟨o, m, hm, ho⟩ := Markers.of_top htop
    obtain ⟨hv, h⟩ := h.pop hbound
    obtain ⟨-, rest, -, -, hf, -⟩ := (hm ▸ h.markers).top
    exact h.testLoop (s := .openFor counter start bound.1) hm (Frame.kind_of_for? ho) rfl rfl hr
      ⟨(hf.of_for? ho).1, (hf.of_for? ho).2, hv⟩ rfl
  | endFor name =>
    obtain ⟨b, hb, he⟩ := ok_of_bind he
    cases he
    exact h.closeLoop hb Frame.kind_of_for? rfl rfl hr hclosed

theorem run {code : List Instr} (h : e.Neat r.markers)
    (hcode : ∀ i ∈ code, ∀ name ∈ i.op.name?, braces.IsFree name) (he : code.foldlM Emitter.instr e = .ok e')
    (hr : code.foldlM MarkerRun.instr r = .ok r') (hclosed : ∀ c ∈ r'.closed, c.TestedOnce) : e'.Neat r'.markers := by
  induction code generalizing e r with
  | nil =>
    cases he
    cases hr
    exact h
  | cons i code ih =>
    obtain ⟨hi, hcode⟩ := List.forall_mem_cons.mp hcode
    obtain ⟨e1, he1, he⟩ := ok_of_bind he
    obtain ⟨r1, hr1, hr⟩ := ok_of_bind hr
    exact ih (h.instr hi he1 hr1 fun c hc => hclosed c (MarkerRun.closed_of_run hr hc)) hcode he hr

end Emitter.Neat

structure Neat (s : Script) : Prop where
  globals : ∀ l ∈ s.globals, l.statement.Over braces.IsFree ∧ l.statement.levels = (0, 0)
  functions : ∀ f ∈ s.functions, f.Neat
  entry : s.entry.Neat

/-- The script of code whose names are free of braces and whose loops are all tested once. -/
theorem neat_of_ofCode {code : List Instr} {s : Script}
    (hcode : ∀ i ∈ code, ∀ name ∈ i.op.name?, braces.IsFree name)
    (honce : ∀ cs, constructs code = .ok cs → ∀ c ∈ cs, c.TestedOnce) (h : ofCode code = .ok s) : s.Neat := by
  obtain ⟨e, he, h⟩ := ok_of_bind h
  obtain ⟨u, hfinish, h⟩ := ok_of_bind h
  cases h
  have hmarkers := Markers.of_finish hfinish
  obtain ⟨cs, hcs⟩ := Emitter.constructs_of_run he hmarkers
  obtain ⟨r, hr, rfl⟩ := run_of_constructs hcs
  have hneat := Emitter.Neat.initial.run (r := .initial) hcode he hr (honce _ hcs)
  have hstacked := hneat.markers
  have hcurrent := hneat.current
  rw [hmarkers] at hstacked
  rw [hstacked.of_nil] at hcurrent
  exact ⟨hneat.globals, hneat.functions, hcurrent.function⟩

/-- The functions of a script, at any depth. -/
inductive Has (s : Script) : Function → Prop
  | entry : s.Has s.entry
  | top {f : Function} (h : f ∈ s.functions) : s.Has f
  | nested {f g : Function} (h : s.Has f) (hg : g ∈ f.nested) : s.Has g

namespace Neat

variable {s : Script}

theorem function {f : Function} (h : s.Neat) (hf : s.Has f) : f.Neat := by
  induction hf with
  | entry => exact h.entry
  | top hf => exact h.functions _ hf
  | nested _ hg ih =>
    cases ih with
    | mk _ _ hnested => exact hnested _ hg

theorem afterAll_globals {ls : List Line}
    (h : ∀ l ∈ ls, l.statement.Over braces.IsFree ∧ l.statement.levels = (0, 0)) :
    braces.afterAll 0 ((ls.map Line.text).map String.toList) = some 0 := by
  rw [List.map_map, List.map_eq_flatMap]
  refine afterAll_flatMap fun l hl => ?_
  have hturns := Statement.turns (h l hl).1 0
  rw [(h l hl).2] at hturns
  rw [afterAll_cons, Function.comp_apply, after_lineText]
  exact congrArg (·.bind (braces.afterAll · [])) hturns

theorem balanced (h : s.Neat) : braces.Balanced s.text := by
  have hheader : braces.IsFree header := by decide
  have hlines : braces.afterAll 0 (s.lines.map String.toList) = some 0 := by
    simp only [lines, List.map_append, List.cons_append, List.nil_append, List.map_cons]
    rw [afterAll_cons, hheader.turns 0, Option.bind_some, afterAll_append, afterAll_append, afterAll_globals h.globals,
      Option.bind_some, List.map_flatMap, afterAll_flatMap fun f hf => (h.functions f hf).afterAll]
    exact h.entry.afterAll
  rw [Brackets.Balanced, text, String.toList_append, after_append_free isFree_lineEnd, after_intercalate]
  exact hlines

end Neat

theorem Function.Neat.balanced {f : Function} (h : f.Neat) : braces.Balanced ("\n".intercalate f.lines) := by
  rw [Brackets.Balanced, after_intercalate]
  exact h.afterAll

end Script

open Brackets

/-- Brackets balance in what either target makes of code whose names have none: in the whole text and in
every function, with every line indented by the brackets open at it. In a module the level of a function
is never lowered below zero, and it is back at zero in the end. For a script each loop must be tested
once. -/
theorem brackets_balance (code : List Instr) :
    ((∀ i ∈ code, ∀ name ∈ i.op.name?, parens.IsFree name) →
      ∀ text trace, Target.stackModule.render code = .ok (text, trace) →
        ∃ w, StackModule.Writer.ofCode code = .ok w ∧ text = String.join (w.lines.map StackModule.Line.text) ∧
          parens.Balanced text ∧ parens.Indented 0 0 (w.lines.map StackModule.Line.pair) 0 ∧
          ∀ d ∈ w.entry :: w.functions.toList,
            parens.Balanced (String.join (d.lines.map StackModule.Line.text)) ∧
            parens.Indented 1 0 (d.lines.map StackModule.Line.pair) 0 ∧
            (StackModule.Body.ofEdits d.edits.toList).indent = 0 ∧
            ∀ before after, d.edits.toList = before ++ .closing :: after →
              0 < (StackModule.Body.ofEdits before).indent) ∧
    ((∀ i ∈ code, ∀ name ∈ i.op.name?, braces.IsFree name) →
      (∀ cs, constructs code = .ok cs → ∀ c ∈ cs, c.TestedOnce) →
      ∀ s, Script.ofCode code = .ok s →
        braces.Balanced s.text ∧
        ∀ f, s.Has f →
          braces.Balanced ("\n".intercalate f.lines) ∧
          braces.Indented 1 0 (f.body.map Script.Line.pair) 0) := by
  refine ⟨fun hnames text trace hrender => ?_, fun hnames honce s hs => ?_⟩
  · obtain ⟨w, hw, hrender⟩ := ok_of_bind hrender
    obtain ⟨rfl, -⟩ := Prod.mk.inj (Except.ok.inj hrender)
    have hclosed := StackModule.Writer.closed_of_ofCode hnames hw
    refine ⟨w, hw, rfl, StackModule.after_text hclosed.indented, hclosed.indented, fun d hd => ?_⟩
    have hdrafts : ∀ d ∈ w.entry :: w.functions.toList, d.Neat 0 :=
      List.forall_mem_cons.mpr ⟨hclosed.entry, hclosed.functions⟩
    have hneat := hdrafts d hd
    refine ⟨StackModule.after_text hneat.indented, hneat.indented, hneat.edits.ofEdits.1, ?_⟩
    intro before after heq
    have hedits := hneat.edits
    rw [heq] at hedits
    exact hedits.indent_pos
  · have hneat := Script.neat_of_ofCode hnames honce hs
    refine ⟨hneat.balanced, fun f hf => ?_⟩
    cases hneat.function hf with
    | mk hname hbody hnested => exact ⟨(Script.Function.Neat.mk hname hbody hnested).balanced, hbody⟩

/-- A procedure that starts inside a loop and has a chain of branches. -/
def nestedChain : List Instr :=
  [⟨.declare "x", 1⟩, ⟨.whileMark, 2⟩, ⟨.push 1, 2⟩, ⟨.doMark, 2⟩, ⟨.procedureStart "p", 3⟩, ⟨.load "x", 4⟩,
   ⟨.ifMark, 4⟩, ⟨.push 1, 5⟩, ⟨.store "x", 5⟩, ⟨.push 0, 6⟩, ⟨.elseIf, 6⟩, ⟨.call "p", 7⟩, ⟨.elseMark, 8⟩,
   ⟨.push 2, 9⟩, ⟨.write, 9⟩, ⟨.endIf, 10⟩, ⟨.procedureEnd "p", 11⟩, ⟨.call "p", 12⟩, ⟨.endWhile, 13⟩]

theorem brackets_balance_nestedChain :
    ∃ text trace s, Target.stackModule.render nestedChain = .ok (text, trace) ∧
      Script.ofCode nestedChain = .ok s ∧ parens.Balanced text ∧ braces.Balanced s.text := by
  have hparens : ∀ i ∈ nestedChain, ∀ name ∈ i.op.name?, parens.IsFree name := by decide
  have hbraces : ∀ i ∈ nestedChain, ∀ name ∈ i.op.name?, braces.IsFree name := by decide
  have honce : ∀ cs, constructs nestedChain = .ok cs → ∀ c ∈ cs, c.TestedOnce := by
    intro cs hcs
    cases hcs
    decide
  obtain ⟨⟨text, trace⟩, hrender⟩ : ∃ out, Target.stackModule.render nestedChain = .ok out := ⟨_, rfl⟩
  obtain ⟨s, hs⟩ : ∃ s, Script.ofCode nestedChain = .ok s := ⟨_, rfl⟩
  obtain ⟨w, -, -, hbalanced, -⟩ := (brackets_balance nestedChain).1 hparens text trace hrender
  exact ⟨text, trace, s, hrender, hs, hbalanced,
    ((brackets_balance nestedChain).2 hbraces honce s hs).1⟩

end PLZero
