import PLZero.Proofs.Brackets
import PLZero.Proofs.Constructs
import PLZero.Proofs.ModuleText
import PLZero.Proofs.ModuleWriting

/-! The parentheses of a module text. The open structures of each function say how many levels its
edits have opened, so no level is left that was not opened, and at the end all are left. -/

namespace PLZero

namespace StackModule

open Brackets

variable {g text value : String}

theorem turns_constText (v : Int32) : parens.Turns (constText v) 0 0 :=
  ((Turns.of (x := 1) (by decide)).keep (isFree_ofWord v).turns).trans (.of (by decide))

theorem turns_getText (hg : parens.IsFree g) : parens.Turns (getText g) 0 0 :=
  ((Turns.of (x := 1) (by decide)).keep hg.turns).trans (.of (by decide))

theorem turns_setText (hg : parens.IsFree g) (hv : parens.Turns value 0 0) :
    parens.Turns (setText g value) 0 0 :=
  ((((Turns.of (x := 1) (by decide)).keep hg.turns).keep (.of (by decide))).keep hv).trans
    (.of (by decide))

theorem turns_operText {left right : String} (op : BinOp) (hl : parens.Turns left 0 0)
    (hr : parens.Turns right 0 0) : parens.Turns (operText op left right) 0 0 := by
  have hop : parens.Turns (opName op) 0 0 := by cases op <;> exact .of (by decide)
  exact ((((((Turns.of (x := 1) (by decide)).keep hop).keep (.of (by decide))).keep hl).keep
    (.of (by decide))).keep hr).trans (.of (by decide))

namespace Writer

theorem turns_behindLabel (n : Nat) : parens.Turns (behindLabel n) 0 0 :=
  (Turns.of (by decide)).keep (isFree_ofNat n).turns

theorem turns_againLabel (n : Nat) : parens.Turns (againLabel n) 0 0 :=
  (Turns.of (by decide)).keep (isFree_ofNat n).turns

theorem turns_branchIfText (n : Nat) (hv : parens.Turns value 0 0) :
    parens.Turns (branchIfText (behindLabel n) value) 0 0 :=
  ((((Turns.of (x := 1) (by decide)).keep (turns_behindLabel n)).keep (.of (by decide))).keep hv).trans
    (.of (by decide))

end Writer

/-- Edits of lines that close what they open, inside `d` levels at first and `d'` at last; no level is
left that is not open. -/
inductive Nested : Nat → List Edit → Nat → Prop
  | nil {d : Nat} : Nested d [] d
  | line {d d' : Nat} {text : String} {rest : List Edit} (ht : parens.Turns text 0 0)
    (h : Nested d rest d') : Nested d (.line text :: rest) d'
  | opening {d d' : Nat} {text : String} {rest : List Edit} (ht : parens.Turns text 0 1)
    (h : Nested (d + 1) rest d') : Nested d (.opening text :: rest) d'
  | closing {d d' : Nat} {rest : List Edit} (h : Nested d rest d') :
    Nested (d + 1) (.closing :: rest) d'

def Line.pair (l : Line) : Nat × String := (l.depth, l.content)

namespace Nested

variable {d d' d'' : Nat} {edits more : List Edit}

theorem append (h : Nested d edits d') (h' : Nested d' more d'') : Nested d (edits ++ more) d'' := by
  induction h with
  | nil => exact h'
  | line ht _ ih => exact .line ht (ih h')
  | opening ht _ ih => exact .opening ht (ih h')
  | closing _ ih => exact .closing (ih h')

theorem of_append (h : Nested d (edits ++ more) d'') :
    ∃ d', Nested d edits d' ∧ Nested d' more d'' := by
  induction edits generalizing d with
  | nil => exact ⟨d, .nil, h⟩
  | cons e edits ih =>
    cases h with
    | line ht h =>
      obtain ⟨d', h, h'⟩ := ih h
      exact ⟨d', .line ht h, h'⟩
    | opening ht h =>
      obtain ⟨d', h, h'⟩ := ih h
      exact ⟨d', .opening ht h, h'⟩
    | closing h =>
      obtain ⟨d', h, h'⟩ := ih h
      exact ⟨d', .closing h, h'⟩

theorem closings (d n : Nat) : Nested (d + n) (List.replicate n .closing) d := by
  induction n with
  | zero => exact .nil
  | succ n ih => exact .closing ih

theorem one (ht : parens.Turns text 0 0) : Nested d [.line text] d := .line ht .nil

end Nested

theorem Body.indented_line {b : Body} {d d' : Nat}
    (hb : parens.Indented 1 1 (b.lines.toList.map Line.pair) d)
    (hindent : b.indent + 2 + parens.leading text = 1 + d)
    (ht : parens.after d text.toList = some d') :
    parens.Indented 1 1 ((b.line text).lines.toList.map Line.pair) d' := by
  rw [Body.line, Array.toList_push, List.map_append]
  exact hb.append (.cons hindent ht .nil)

namespace Nested

variable {d d' : Nat} {edits : List Edit}

/-- The body is as deep as the levels say, and its lines are indented so. -/
theorem body (h : Nested d edits d') {b : Body} (hb : b.indent = d)
    (hlines : parens.Indented 1 1 (b.lines.toList.map Line.pair) (d + 1)) :
    (edits.foldl Body.edit b).indent = d' ∧
      parens.Indented 1 1 ((edits.foldl Body.edit b).lines.toList.map Line.pair) (d' + 1) := by
  induction h generalizing b with
  | nil => exact ⟨hb, hlines⟩
  | line ht _ ih =>
    refine ih (b := b.line _) hb (Body.indented_line hlines ?_ (ht _))
    rw [ht.leading]
    omega
  | @opening d d' text rest ht _ ih =>
    refine ih (b := { b.line text with indent := b.indent + 1 }) (congrArg (· + 1) hb)
      (Body.indented_line hlines ?_ (ht _))
    rw [ht.leading]
    omega
  | @closing d d' rest _ ih =>
    have hindent : b.indent - 1 = d := by omega
    refine ih (b := { b with indent := b.indent - 1 }.line ")") hindent
      (Body.indented_line (b := { b with indent := b.indent - 1 }) hlines ?_ ?_)
    · change b.indent - 1 + 2 + 1 = 1 + (d + 1 + 1)
      omega
    · exact (Turns.of (a := 1) (x := 0) (by decide)) (d + 1)

theorem ofEdits (h : Nested 0 edits d) : (Body.ofEdits edits).indent = d ∧
    parens.Indented 1 1 ((Body.ofEdits edits).lines.toList.map Line.pair) (d + 1) :=
  h.body rfl .nil

/-- Where a level is left there is one. -/
theorem indent_pos {before after : List Edit} (h : Nested 0 (before ++ .closing :: after) d) :
    0 < (Body.ofEdits before).indent := by
  obtain ⟨d', hbefore, hafter⟩ := h.of_append
  rw [hbefore.ofEdits.1]
  cases hafter with
  | closing => exact Nat.succ_pos _

end Nested

structure Global.Neat (g : Global) : Prop where
  id : parens.IsFree g.id
  exported : ∀ name ∈ g.exported, parens.IsFree name

theorem turns_exported {exported : Option String} (h : ∀ name ∈ exported, parens.IsFree name) :
    parens.Turns (exported.elim "" exportText) 0 0 := by
  cases exported with
  | none => exact .of (by decide)
  | some name =>
    exact ((Turns.of (x := 1) (by decide)).keep (h name rfl).turns).trans (.of (by decide))

theorem Global.Neat.turns {g : Global} (h : g.Neat) : parens.Turns g.line.content 0 0 := by
  have hid : parens.Turns ("(global $" ++ g.id ++ g.exported.elim "" exportText) 0 1 :=
    ((Turns.of (x := 1) (by decide)).keep h.id.turns).keep (turns_exported h.exported)
  have hkind (kind : String) (v : Int32) (hkind : parens.Turns kind 0 0) :
      parens.Turns ("(global $" ++ g.id ++ g.exported.elim "" exportText ++ (kind ++ constText v) ++
        ")") 0 0 :=
    (hid.keep (hkind.keep (turns_constText v))).trans (.of (by decide))
  unfold Global.line
  cases g.constant with
  | none => exact hkind " (mut i32) " 0 (.of (by decide))
  | some v => exact hkind " i32 " v (.of (by decide))

theorem turns_savedLocal (n : Nat) : parens.Turns (savedLocal n) 0 0 :=
  (Turns.of (by decide)).keep (isFree_ofNat n).turns

/-- Lines between one that opens a parenthesis and one that closes it. -/
theorem indented_inside {s : String} {ls : List (Nat × String)} {base d : Nat}
    (hs : parens.Turns s 0 1) (h : parens.Indented base (d + 1) ls (d + 1)) :
    parens.Indented base d ((base + d, s) :: (ls ++ [(base + d, ")")])) d :=
  .opens hs (h.append (.closes (.of (x := 0) (by decide)) (by decide) .nil))

/-- A function is indented by one, and closes what it opens. -/
theorem indented_function {id : String} {exported : Option String} {saved : List String}
    {edits : List Edit} (hid : parens.IsFree id)
    (hexported : ∀ name ∈ exported, parens.IsFree name) (hsaved : ∀ g ∈ saved, parens.IsFree g)
    (hedits : Nested 0 edits 0) :
    parens.Indented 1 0 ((functionLines id exported saved edits).map Line.pair) 0 := by
  have hslot (x : String × Nat) (hx : x ∈ saved.zipIdx) : parens.IsFree x.1 :=
    hsaved x.1 (List.fst_mem_of_mem_zipIdx hx)
  have hlocals : parens.Indented 1 1
      ((saved.zipIdx.map fun x => (⟨2, "(local " ++ savedLocal x.2 ++ " i32)"⟩ : Line)).map
        Line.pair) 1 := by
    refine .all (List.forall_mem_map.mpr (List.forall_mem_map.mpr fun x _ => ⟨rfl, ?_⟩))
    exact ((Turns.of (x := 1) (by decide)).keep (turns_savedLocal x.2)).trans (.of (by decide))
  have hsaves : parens.Indented 1 1 ((saved.zipIdx.flatMap fun x =>
      [(⟨2, "(local.set " ++ savedLocal x.2 ++ " " ++ getText x.1 ++ ")"⟩ : Line),
        ⟨2, setText x.1 (constText 0)⟩]).map Line.pair) 1 := by
    refine .all (List.forall_mem_map.mpr (List.forall_mem_flatMap.mpr fun x hx => ?_))
    have hsave : parens.Turns ("(local.set " ++ savedLocal x.2 ++ " " ++ getText x.1 ++ ")") 0 0 :=
      ((((Turns.of (x := 1) (by decide)).keep (turns_savedLocal x.2)).keep (.of (by decide))).keep
        (turns_getText (hslot x hx))).trans (.of (by decide))
    exact List.forall_mem_cons.mpr ⟨⟨rfl, hsave⟩,
      List.forall_mem_singleton.mpr ⟨rfl, turns_setText (hslot x hx) (turns_constText 0)⟩⟩
  have hrestores : parens.Indented 1 1 ((saved.zipIdx.reverse.map fun x =>
      (⟨2, setText x.1 ("(local.get " ++ savedLocal x.2 ++ ")")⟩ : Line)).map Line.pair) 1 := by
    refine .all (List.forall_mem_map.mpr (List.forall_mem_map.mpr fun x hx => ⟨rfl, ?_⟩))
    exact turns_setText (hslot x (List.mem_reverse.mp hx))
      (((Turns.of (x := 1) (by decide)).keep (turns_savedLocal x.2)).trans (.of (by decide)))
  have hheader : parens.Turns ("(func $" ++ id ++ exported.elim "" exportText) 0 1 :=
    ((Turns.of (x := 1) (by decide)).keep hid.turns).keep (turns_exported hexported)
  have hall := indented_inside hheader
    (((hlocals.append hsaves).append hedits.ofEdits.2).append hrestores)
  simp only [functionLines, List.map_append, List.map_cons, List.cons_append]
  exact hall

/-- A function under construction whose edits have opened so many levels. -/
structure Writer.Draft.Neat (d : Writer.Draft) (levels : Nat) : Prop where
  id : parens.IsFree d.id
  exported : ∀ name ∈ d.exported, parens.IsFree name
  saved : ∀ g ∈ d.saved.toList, parens.IsFree g
  edits : Nested 0 d.edits.toList levels
  stack : ∀ text ∈ d.stack, parens.Turns text 0 0

namespace Writer.Draft.Neat

variable {d : Writer.Draft} {levels levels' : Nat}

theorem indented (h : d.Neat 0) : parens.Indented 1 0 (d.lines.map Line.pair) 0 :=
  indented_function h.id h.exported h.saved h.edits

theorem withStack {stack : List String} (h : d.Neat levels)
    (hstack : ∀ text ∈ stack, parens.Turns text 0 0) :
    Writer.Draft.Neat { d with stack } levels :=
  ⟨h.id, h.exported, h.saved, h.edits, hstack⟩

theorem add {edits : List Edit} (h : d.Neat levels) (hedits : Nested levels edits levels') :
    (d.add edits).Neat levels' := by
  refine ⟨h.id, h.exported, h.saved, ?_, h.stack⟩
  rw [Draft.add, Array.toList_appendList]
  exact h.edits.append hedits

end Writer.Draft.Neat

/-- Names without parentheses, and functions that close those they open. -/
structure Writer.Closed (w : Writer) : Prop where
  globals : ∀ g ∈ w.globals.toList, g.Neat
  functions : ∀ d ∈ w.functions.toList, d.Neat 0
  entry : w.entry.Neat 0

theorem Writer.Closed.indented {w : Writer} (h : w.Closed) :
    parens.Indented 0 0 (w.lines.map Line.pair) 0 := by
  have himports : ∀ h ∈ Hook.all, parens.after 0 h.importText.toList = some 0 := by decide
  have hhooks : parens.Indented 0 1
      ((Hook.all.map fun h => (⟨1, h.importText⟩ : Line)).map Line.pair) 1 :=
    .all (List.forall_mem_map.mpr (List.forall_mem_map.mpr fun h hh =>
      ⟨rfl, .of (himports h hh)⟩))
  have hglobals : parens.Indented 0 1 ((w.globals.toList.map Global.line).map Line.pair) 1 :=
    .all (List.forall_mem_map.mpr (List.forall_mem_map.mpr fun g hg =>
      ⟨rfl, (h.globals g hg).turns⟩))
  have hdrafts : ∀ d ∈ w.functions.toList ++ [w.entry], d.Neat 0 :=
    List.forall_mem_append.mpr ⟨h.functions, List.forall_mem_singleton.mpr h.entry⟩
  have hfunctions : parens.Indented 0 1
      (((w.functions.toList ++ [w.entry]).map Draft.lines).flatten.map Line.pair) 1 := by
    generalize w.functions.toList ++ [w.entry] = ds at hdrafts
    induction ds with
    | nil => exact .nil
    | cons d ds ih =>
      obtain ⟨hd, hds⟩ := List.forall_mem_cons.mp hdrafts
      have hone : parens.Indented 0 1 (d.lines.map Line.pair) 1 := Indented.raise (k := 1) hd.indented
      rw [List.map_cons, List.flatten_cons, List.map_append]
      exact hone.append (ih hds)
  have hall := indented_inside (s := "(module") (.of (by decide))
    ((hhooks.append hglobals).append hfunctions)
  simp only [Writer.lines, moduleLines, List.map_append, List.map_cons, List.cons_append] at hall ⊢
  exact hall

theorem isFree_blanks {b : Brackets} (n : Nat) : b.IsFree ("".pushn ' ' n) := by
  unfold IsFree
  rw [toList_pushn]
  intro c hc
  rw [List.eq_of_mem_replicate hc]
  cases b <;> decide

/-- The text of lines ends with as many parentheses open as the lines. -/
theorem after_text {ls : List Line} {base d d' : Nat} (h : parens.Indented base d (ls.map Line.pair) d') :
    parens.after d (String.join (ls.map Line.text)).toList = some d' := by
  have hline (l : Line) (d : Nat) : parens.after d l.text.toList = parens.after d l.pair.2.toList := by
    rw [Line.text, String.toList_append, after_append_free isFree_lineEnd, String.toList_append,
      after_free_append (isFree_blanks _)]
    rfl
  have hjoin : (String.join (ls.map Line.text)).toList = ls.flatMap (·.text.toList) := by
    rw [String.toList_join, List.flatMap_map]
  rw [hjoin]
  exact h.after_flatMap hline

/-- The names in sight are free of parentheses if those of the scopes around are. -/
def FreeScopes (s : Scopes) : Prop := ∀ scope ∈ s.stack, ∀ name ∈ scope.path, parens.IsFree name

namespace FreeScopes

variable {s : Scopes} {name : String} {i : Instr}

theorem declare (h : FreeScopes s) : FreeScopes (s.declare name) := by
  obtain ⟨hinner, houter⟩ := List.forall_mem_cons.mp h
  exact List.forall_mem_cons.mpr ⟨hinner, houter⟩

theorem path (h : FreeScopes s) : ∀ n ∈ s.path, parens.IsFree n := h s.inner List.mem_cons_self

theorem enter (h : FreeScopes s) (hname : parens.IsFree name) : FreeScopes (s.enter name) := by
  obtain ⟨hinner, houter⟩ := List.forall_mem_cons.mp h
  refine List.forall_mem_cons.mpr ⟨?_, List.forall_mem_cons.mpr ⟨hinner, houter⟩⟩
  exact List.forall_mem_append.mpr ⟨h.path, List.forall_mem_singleton.mpr hname⟩

theorem leave (h : FreeScopes s) : FreeScopes s.leave := by
  unfold Scopes.leave
  split
  · next inner outer hs => exact fun scope hscope => h scope (List.mem_cons_of_mem _ (hs ▸ hscope))
  · exact h

theorem qualify {path : List String} (h : ∀ n ∈ path, parens.IsFree n) (hname : parens.IsFree name) :
    parens.IsFree (qualify path name) :=
  isFree_dotted (List.forall_mem_append.mpr ⟨h, List.forall_mem_singleton.mpr hname⟩)

theorem binding {id : String} (h : FreeScopes s) (hname : parens.IsFree name) (hid : s.binding name i = .ok id) :
    parens.IsFree id := by
  unfold Scopes.binding at hid
  split at hid
  · next path hpath =>
    cases hid
    obtain ⟨scope, hscope, rfl⟩ := Option.map_eq_some_iff.mp hpath
    exact qualify (h scope (List.mem_of_find?_eq_some hscope)) hname
  · cases hid

theorem procedure {id : String} (h : FreeScopes s) (hname : parens.IsFree name) (hid : s.procedure name i = .ok id) :
    parens.IsFree id := by
  unfold Scopes.procedure at hid
  split at hid
  · next path hpath =>
    cases hid
    obtain ⟨scope, hscope, rfl⟩ := Option.map_eq_some_iff.mp hpath
    exact qualify (h scope (List.mem_of_find?_eq_some hscope)) hname
  · cases hid

end FreeScopes

namespace Writer

/-- The levels that an open structure has opened. -/
def Frame.levels : Frame → Nat
  | .procedure => 0
  | .branch guards _ => 2 * guards
  | .whileLoop _ | .forLoop .. => 2

def levelsIn : Markers Frame → Nat
  | [] => 0
  | o :: m => match o.frame with
    | .procedure => 0
    | f => levelsIn m + f.levels

def levelsAround : Markers Frame → List Nat
  | [] => []
  | o :: m => match o.frame with
    | .procedure => levelsIn m :: levelsAround m
    | _ => levelsAround m

/-- A structure other than a procedure is inside the function around it. -/
theorem levels_inside {o : OpenMarker Frame} (h : o.frame.procedure? = none) (m : Markers Frame) :
    levelsIn (o :: m) = levelsIn m + o.frame.levels ∧ levelsAround (o :: m) = levelsAround m := by
  obtain ⟨f, marker, line⟩ := o
  cases f with
  | procedure => cases h
  | branch | whileLoop | forLoop => exact ⟨rfl, rfl⟩

theorem nested_openGuard {cond : String} (h : parens.Turns cond 0 0) (d : Nat) :
    Nested d (openGuard cond) (d + 2) :=
  .opening ((Turns.of (x := 1) (by decide)).keep h) (.opening (.of (by decide)) .nil)

theorem nested_openLoop (n d : Nat) : Nested d (openLoop n) (d + 2) :=
  .opening ((Turns.of (x := 1) (by decide)).keep (turns_behindLabel n))
    (.opening ((Turns.of (x := 1) (by decide)).keep (turns_againLabel n)) .nil)

theorem nested_closeLoop (n d : Nat) : Nested (d + 2) (closeLoop n) d :=
  .line (((Turns.of (x := 1) (by decide)).keep (turns_againLabel n)).trans (.of (by decide)))
    (.closing (.closing .nil))

/-- An `ELSEIF` or `ELSE` leaves the branch before it. -/
theorem nested_else {d d' : Nat} {edits : List Edit} (h : Nested d edits d') (hd : 0 < d) :
    Nested d (.closing :: .opening "(else" :: edits) d' := by
  obtain ⟨d, rfl⟩ := Nat.exists_eq_succ_of_ne_zero hd.ne'
  exact .closing (.opening (.of (by decide)) h)

def Frame.Neat : Frame → Prop
  | .branch guards _ => 0 < guards
  | .forLoop _ counter => parens.IsFree counter
  | .procedure | .whileLoop _ => True

/-- Each function has opened the levels that its structures say. -/
structure Neat (w : Writer) : Prop where
  scopes : FreeScopes w.scopes
  globals : ∀ g ∈ w.globals.toList, g.Neat
  functions : ∀ d ∈ w.functions.toList, d.Neat 0
  opened : List.Forall₂ Draft.Neat w.opened (levelsIn w.markers :: levelsAround w.markers)
  markers : ∀ o ∈ w.markers, o.frame.Neat

variable {w w' : Writer} {i : Instr}

theorem of_pop {r : String × Writer} (h : w.pop i = .ok r) :
    ∃ stack, w.current.stack = r.1 :: stack ∧ r.2 = w.withCurrent { w.current with stack } := by
  unfold pop at h
  split at h
  · next text stack hs =>
    cases h
    exact ⟨stack, hs, rfl⟩
  · cases h

theorem of_continueIf {isLast : Bool} (h : w.continueIf i isLast = .ok w') :
    ∃ o rest guards, w.markers = o :: rest ∧ o.frame = .branch guards false ∧
      w' = { w with
        markers := w.markers.replace (.branch (if isLast then guards else guards + 1) isLast) } := by
  obtain ⟨⟨guards, last⟩, htop, h⟩ := ok_of_bind h
  obtain ⟨⟨f, marker, line⟩, rest, hm, hf⟩ := Markers.of_top htop
  cases f with
  | procedure | whileLoop | forLoop => cases hf
  | branch guards' last' =>
    cases hf
    cases last with
    | true => cases h
    | false =>
      cases h
      refine ⟨_, rest, guards, hm, rfl, ?_⟩
      cases isLast <;> rfl

namespace Neat

variable {edits : List Edit}

theorem initial : Writer.initial.Neat where
  scopes := by simp [FreeScopes, Writer.initial, Scopes.initial, Scopes.stack]
  globals := List.forall_mem_nil _
  functions := List.forall_mem_nil _
  opened := .cons ⟨by decide, by decide, List.forall_mem_nil _, .nil, List.forall_mem_nil _⟩ .nil
  markers := List.forall_mem_nil _

theorem current (h : w.Neat) : w.current.Neat (levelsIn w.markers) := by
  have hopened := h.opened
  rw [opened_eq] at hopened
  exact (List.forall₂_cons.mp hopened).1

theorem around (h : w.Neat) : List.Forall₂ Draft.Neat w.opened.tail (levelsAround w.markers) := by
  have hopened := h.opened
  rw [opened_eq] at hopened
  exact (List.forall₂_cons.mp hopened).2

theorem withCurrent {d : Draft} (h : w.Neat) (hd : d.Neat (levelsIn w.markers)) :
    (w.withCurrent d).Neat := by
  refine ⟨?_, ?_, ?_, ?_, ?_⟩
  · rw [scopes_withCurrent]
    exact h.scopes
  · rw [globals_withCurrent]
    exact h.globals
  · rw [functions_withCurrent]
    exact h.functions
  · rw [opened_withCurrent, markers_withCurrent]
    exact .cons hd h.around
  · rw [markers_withCurrent]
    exact h.markers

theorem push (h : w.Neat) (ht : parens.Turns text 0 0) : (w.push text).Neat :=
  h.withCurrent (h.current.withStack (List.forall_mem_cons.mpr ⟨ht, h.current.stack⟩))

theorem pop {r : String × Writer} (h : w.Neat) (hr : w.pop i = .ok r) :
    parens.Turns r.1 0 0 ∧ r.2.Neat ∧ r.2.markers = w.markers := by
  obtain ⟨stack, hs, hr⟩ := of_pop hr
  have hstack := h.current.stack
  rw [hs] at hstack
  obtain ⟨ht, hstack⟩ := List.forall_mem_cons.mp hstack
  rw [hr]
  exact ⟨ht, h.withCurrent (h.current.withStack hstack), markers_withCurrent ..⟩

/-- Edits of the innermost function that lead from its levels in open structures to those in others. -/
theorem restructured {m : Markers Frame} (h : w.Neat)
    (hedits : Nested (levelsIn w.markers) edits (levelsIn m))
    (haround : levelsAround m = levelsAround w.markers) (hm : ∀ o ∈ m, o.frame.Neat) :
    Neat { w.add edits with markers := m } := by
  refine ⟨?_, ?_, ?_, ?_, hm⟩
  · change FreeScopes (w.withCurrent _).scopes
    rw [scopes_withCurrent]
    exact h.scopes
  · change ∀ g ∈ (w.withCurrent _).globals.toList, g.Neat
    rw [globals_withCurrent]
    exact h.globals
  · change ∀ d ∈ (w.withCurrent _).functions.toList, d.Neat 0
    rw [functions_withCurrent]
    exact h.functions
  · change List.Forall₂ Draft.Neat (w.withCurrent _).opened (levelsIn m :: levelsAround m)
    rw [opened_withCurrent, haround]
    exact .cons (h.current.add hedits) h.around

theorem add (h : w.Neat)
    (hedits : Nested (levelsIn w.markers) edits (levelsIn w.markers)) : (w.add edits).Neat :=
  h.withCurrent (h.current.add hedits)

theorem enter {f : Frame} (h : w.Neat) (hf : f.Neat) (hproc : f.procedure? = none)
    (hedits : Nested (levelsIn w.markers) edits (levelsIn w.markers + f.levels)) :
    Neat { w.add edits with markers := w.markers.push f i } := by
  obtain ⟨hin, haround⟩ := levels_inside (o := ⟨f, i.op.opcode, i.line⟩) hproc w.markers
  exact h.restructured (hin ▸ hedits) haround (List.forall_mem_cons.mpr ⟨hf, h.markers⟩)

theorem leave {o : OpenMarker Frame} {rest : Markers Frame} (h : w.Neat)
    (hm : w.markers = o :: rest) (hproc : o.frame.procedure? = none)
    (hedits : Nested (levelsIn rest + o.frame.levels) edits (levelsIn rest)) :
    Neat { w.add edits with markers := rest } := by
  obtain ⟨hin, haround⟩ := levels_inside hproc rest
  have hmarkers := h.markers
  rw [hm] at hmarkers
  rw [← hm] at hin haround
  exact h.restructured (hin ▸ hedits) haround.symm (List.forall_mem_cons.mp hmarkers).2

theorem switch {o : OpenMarker Frame} {rest : Markers Frame} {guards guards' : Nat} {last : Bool}
    (h : w.Neat) (hm : w.markers = o :: rest)
    (hf : o.frame = .branch guards false) (hguards : 0 < guards')
    (hedits : ∀ d, 0 < d + 2 * guards → Nested (d + 2 * guards) edits (d + 2 * guards')) :
    Neat { w.add edits with markers := w.markers.replace (.branch guards' last) } := by
  have hproc : o.frame.procedure? = none := by rw [hf]; rfl
  obtain ⟨hin, haround⟩ := levels_inside hproc rest
  obtain ⟨hin', haround'⟩ := levels_inside (o := { o with frame := .branch guards' last }) rfl rest
  have hmarkers := List.forall_mem_cons.mp (hm ▸ h.markers)
  have hopen : 0 < guards := by
    have hneat := hmarkers.1
    rwa [hf] at hneat
  rw [← hm, hf] at hin
  rw [← hm] at haround
  have hreplace : w.markers.replace (.branch guards' last) =
      { o with frame := .branch guards' last } :: rest := by rw [hm]; rfl
  rw [hreplace]
  refine h.restructured ?_ (haround'.trans haround.symm)
    (List.forall_mem_cons.mpr ⟨hguards, hmarkers.2⟩)
  rw [hin, hin']
  exact hedits (levelsIn rest) (by omega)

theorem declare {name : String} (h : w.Neat) (hname : parens.IsFree name)
    (constant : Option Int32) : (w.declare name constant).Neat := by
  have hid : parens.IsFree (PLZero.qualify (w.scopes.declare name).path name) :=
    FreeScopes.qualify h.scopes.declare.path hname
  have hsave (id : String) (hid : parens.IsFree id) : (w.save id).Neat := by
    refine h.withCurrent ⟨h.current.id, h.current.exported, ?_, h.current.edits, h.current.stack⟩
    rw [Array.toList_push]
    exact List.forall_mem_append.mpr ⟨h.current.saved, List.forall_mem_singleton.mpr hid⟩
  have hglobal {w1 : Writer} (h1 : w1.Neat) {exported : Option String}
      (hexported : ∀ n ∈ exported, parens.IsFree n) :
      Neat { w1 with
        scopes := w.scopes.declare name
        globals := w1.globals.push
          ⟨PLZero.qualify (w.scopes.declare name).path name, exported, constant⟩ } := by
    refine ⟨h.scopes.declare, ?_, h1.functions, h1.opened, h1.markers⟩
    rw [Array.toList_push]
    exact List.forall_mem_append.mpr ⟨h1.globals, List.forall_mem_singleton.mpr ⟨hid, hexported⟩⟩
  have hexported : ∀ n ∈ (if (w.scopes.declare name).inProcedure || name == entryExport then none
      else some name), parens.IsFree n := by
    intro n hn
    split at hn <;> cases hn
    exact hname
  simp only [Writer.declare]
  split
  · exact hglobal (hsave _ hid) hexported
  · exact hglobal h hexported

theorem startProcedure {name : String} (h : w.Neat) (hname : parens.IsFree name) :
    (w.startProcedure name i).Neat := by
  have hscopes := h.scopes.enter hname
  have hfresh (id : String) (hid : parens.IsFree id) : (Draft.initial id none).Neat 0 :=
    ⟨hid, by simp [Draft.initial], List.forall_mem_nil _, .nil, List.forall_mem_nil _⟩
  exact ⟨hscopes, h.globals, h.functions, .cons (hfresh _ (isFree_dotted hscopes.path)) h.opened,
    List.forall_mem_cons.mpr ⟨trivial, h.markers⟩⟩

theorem endProcedure (h : w.Neat) (hw : w.endProcedure i = .ok w') : w'.Neat := by
  obtain ⟨⟨u, rest⟩, hpop, hw⟩ := ok_of_bind hw
  obtain ⟨⟨f, marker, line⟩, hm, hf⟩ := Markers.of_pop hpop
  cases f with
  | branch | whileLoop | forLoop => cases hf
  | procedure =>
    cases hw
    have hopened := h.opened
    have hmarkers := h.markers
    unfold Writer.opened at hopened
    rw [hm] at hopened hmarkers
    cases hp : w.procedures with
    | nil =>
      rw [hp] at hopened
      cases (List.forall₂_cons.mp hopened).2
    | cons p ps =>
      rw [hp] at hopened
      obtain ⟨hdone, houter⟩ := List.forall₂_cons.mp hopened
      refine ⟨h.scopes.leave, h.globals, ?_, houter, (List.forall_mem_cons.mp hmarkers).2⟩
      simp only [List.take_succ_cons, List.take_zero, Array.toList_appendList]
      exact List.forall_mem_append.mpr ⟨h.functions, List.forall_mem_singleton.mpr hdone⟩

theorem startLoop {frame : Nat → Frame} (h : w.Neat) (hf : ∀ n, (frame n).Neat)
    (hproc : ∀ n, (frame n).procedure? = none) (hlevels : ∀ n, (frame n).levels = 2) :
    (w.startLoop frame i).Neat := by
  have h' : Neat { w.add (openLoop (w.loops + 1)) with
      markers := w.markers.push (frame (w.loops + 1)) i } :=
    h.enter (hf _) (hproc _) (by rw [hlevels]; exact nested_openLoop _ _)
  exact ⟨h'.scopes, h'.globals, h'.functions, h'.opened, h'.markers⟩

theorem instr (h : w.Neat) (hi : ∀ name ∈ i.op.name?, parens.IsFree name)
    (hw : w.instr i = .ok w') : w'.Neat := by
  obtain ⟨op, line⟩ := i
  cases op with
  | declare name =>
    cases hw
    exact h.declare (hi name rfl) none
  | const name value =>
    cases hw
    exact h.declare (hi name rfl) (some value)
  | load name =>
    obtain ⟨id, hid, hw⟩ := ok_of_bind hw
    cases hw
    exact h.push (turns_getText (h.scopes.binding (hi name rfl) hid))
  | push value =>
    cases hw
    exact h.push (turns_constText value)
  | oper op =>
    obtain ⟨r, hr, hw⟩ := ok_of_bind hw
    obtain ⟨l, hl, hw⟩ := ok_of_bind hw
    cases hw
    obtain ⟨hright, h, -⟩ := h.pop hr
    obtain ⟨hleft, h, -⟩ := h.pop hl
    exact h.push (turns_operText op hleft hright)
  | store name =>
    obtain ⟨id, hid, hw⟩ := ok_of_bind hw
    obtain ⟨r, hr, hw⟩ := ok_of_bind hw
    cases hw
    obtain ⟨hv, hpop, -⟩ := h.pop hr
    exact hpop.add (.one (turns_setText (h.scopes.binding (hi name rfl) hid) hv))
  | call name =>
    obtain ⟨id, hid, hw⟩ := ok_of_bind hw
    cases hw
    have hfree := h.scopes.procedure (hi name rfl) hid
    exact h.add (.one (((Turns.of (x := 1) (by decide)).keep hfree.turns).trans (.of (by decide))))
  | read name =>
    obtain ⟨id, hid, hw⟩ := ok_of_bind hw
    cases hw
    exact h.add (.one (turns_setText (h.scopes.binding (hi name rfl) hid) (.of (by decide))))
  | write =>
    obtain ⟨r, hr, hw⟩ := ok_of_bind hw
    cases hw
    obtain ⟨hv, h, -⟩ := h.pop hr
    exact h.add (.one (((Turns.of (x := 1) (by decide)).keep hv).trans (.of (by decide))))
  | procedureStart name =>
    cases hw
    exact h.startProcedure (hi name rfl)
  | procedureEnd name => exact h.endProcedure hw
  | ifMark =>
    obtain ⟨r, hr, hw⟩ := ok_of_bind hw
    cases hw
    obtain ⟨hcond, h, -⟩ := h.pop hr
    exact h.enter Nat.one_pos rfl (nested_openGuard hcond _)
  | elseIf =>
    obtain ⟨w1, hif, hw⟩ := ok_of_bind hw
    obtain ⟨o, rest, guards, hm, hf, rfl⟩ := of_continueIf hif
    obtain ⟨r, hr, hw⟩ := ok_of_bind hw
    rw [pop_withMarkers] at hr
    cases hpop : w.pop ⟨.elseIf, line⟩ with
    | error err =>
      rw [hpop] at hr
      cases hr
    | ok r0 =>
      rw [hpop] at hr
      cases hr
      cases hw
      obtain ⟨hcond, h, hmarkers⟩ := h.pop hpop
      rw [add_withMarkers, ← hmarkers]
      exact h.switch (hmarkers.trans hm) hf (Nat.succ_pos _) fun d => nested_else (nested_openGuard hcond _)
  | elseMark =>
    obtain ⟨w1, hif, hw⟩ := ok_of_bind hw
    obtain ⟨o, rest, guards, hm, hf, rfl⟩ := of_continueIf hif
    have hopen := h.markers o (hm ▸ List.mem_cons_self)
    rw [hf] at hopen
    cases hw
    rw [add_withMarkers]
    exact h.switch hm hf hopen fun d => nested_else .nil
  | endIf =>
    obtain ⟨⟨⟨guards, last⟩, rest⟩, hpop, hw⟩ := ok_of_bind hw
    cases hw
    obtain ⟨⟨f, marker, ln⟩, hm, hf⟩ := Markers.of_pop hpop
    cases f with
    | procedure | whileLoop | forLoop => cases hf
    | branch =>
      cases hf
      exact h.leave hm rfl (.closings _ _)
  | whileMark =>
    cases hw
    exact h.startLoop (fun _ => trivial) (fun _ => rfl) fun _ => rfl
  | doMark =>
    obtain ⟨number, -, hw⟩ := ok_of_bind hw
    obtain ⟨r, hr, hw⟩ := ok_of_bind hw
    cases hw
    obtain ⟨hv, h, -⟩ := h.pop hr
    exact h.add (.one (turns_branchIfText number
      (((Turns.of (x := 1) (by decide)).keep hv).trans (.of (by decide)))))
  | endWhile =>
    obtain ⟨⟨number, rest⟩, hpop, hw⟩ := ok_of_bind hw
    cases hw
    obtain ⟨⟨f, marker, ln⟩, hm, hf⟩ := Markers.of_pop hpop
    cases f with
    | procedure | branch | forLoop => cases hf
    | whileLoop => exact h.leave hm rfl (nested_closeLoop number _)
  | forInit name =>
    obtain ⟨id, hid, hw⟩ := ok_of_bind hw
    obtain ⟨r, hr, hw⟩ := ok_of_bind hw
    cases hw
    have hcounter := h.scopes.binding (hi name rfl) hid
    obtain ⟨hv, h, -⟩ := h.pop hr
    exact (h.add (.one (turns_setText hcounter hv))).startLoop (fun _ => hcounter) (fun _ => rfl)
      fun _ => rfl
  | forTo name =>
    obtain ⟨⟨number, counter⟩, htop, hw⟩ := ok_of_bind hw
    obtain ⟨r, hr, hw⟩ := ok_of_bind hw
    cases hw
    obtain ⟨⟨f, marker, ln⟩, rest, hm, hf⟩ := Markers.of_top htop
    have hcounter := h.markers _ (hm ▸ List.mem_cons_self)
    obtain ⟨hv, h, -⟩ := h.pop hr
    cases f with
    | procedure | branch | whileLoop => cases hf
    | forLoop =>
      cases hf
      exact h.add (.one (turns_branchIfText number (turns_operText .ge (turns_getText hcounter) hv)))
  | endFor name =>
    obtain ⟨⟨⟨number, counter⟩, rest⟩, hpop, hw⟩ := ok_of_bind hw
    cases hw
    obtain ⟨⟨f, marker, ln⟩, hm, hf⟩ := Markers.of_pop hpop
    have hcounter := h.markers _ (hm ▸ List.mem_cons_self)
    cases f with
    | procedure | branch | whileLoop => cases hf
    | forLoop =>
      cases hf
      exact h.leave hm rfl (.line (turns_setText hcounter
        (turns_operText .add (turns_getText hcounter) (turns_constText 1)))
        (nested_closeLoop number _))

theorem run {code : List Instr} (h : w.Neat)
    (hcode : ∀ i ∈ code, ∀ name ∈ i.op.name?, parens.IsFree name)
    (hw : code.foldlM Writer.instr w = .ok w') : w'.Neat := by
  induction code generalizing w with
  | nil =>
    cases hw
    exact h
  | cons i code ih =>
    obtain ⟨hi, hcode⟩ := List.forall_mem_cons.mp hcode
    obtain ⟨w1, hi', hw⟩ := ok_of_bind hw
    exact ih (h.instr hi hi') hcode hw

end Neat

/-- The module of code whose names are free of parentheses. -/
theorem closed_of_ofCode {code : List Instr}
    (hcode : ∀ i ∈ code, ∀ name ∈ i.op.name?, parens.IsFree name) (h : ofCode code = .ok w) :
    w.Closed := by
  obtain ⟨w1, hw, h⟩ := ok_of_bind h
  obtain ⟨u, hfinish, h⟩ := ok_of_bind h
  cases h
  have hneat := Neat.initial.run hcode hw
  have hopened := hneat.opened
  unfold opened at hopened
  rw [Markers.of_finish hfinish] at hopened
  refine ⟨hneat.globals, hneat.functions, ?_⟩
  cases hp : w.procedures with
  | nil =>
    rw [hp] at hopened
    exact (List.forall₂_cons.mp hopened).1
  | cons p ps =>
    rw [hp] at hopened
    have hrest := (List.forall₂_cons.mp hopened).2.length_eq
    simp [levelsAround] at hrest

end Writer

end StackModule

end PLZero
