import PLZero.Proofs.LineNotes
import PLZero.Proofs.ModuleText
import PLZero.Proofs.Printed
import PLZero.Proofs.ScriptScopes

/-! The lines of a script's text. Every line is a statement, or the head or end of a function, behind its indentation
and before its note, and the note is what a line map reads off it. -/

namespace PLZero

namespace Text

/-- A text without line ends. -/
def OneLine (s : String) : Prop := ∀ c ∈ s.toList, c ≠ '\n' ∧ c ≠ '\r'

instance (s : String) : Decidable (OneLine s) :=
  decidable_of_iff (s.toList.all (fun c => c != '\n' && c != '\r') = true) (by simp [OneLine])

theorem oneLine_append {s t : String} : OneLine (s ++ t) ↔ OneLine s ∧ OneLine t := by
  simp only [OneLine, String.toList_append, List.forall_mem_append]

theorem linesFrom_append {acc cs rest : List Char} (h : '\n' ∉ cs) :
    linesFrom acc (cs ++ '\n' :: rest) = closeLine (cs.reverse ++ acc) :: linesFrom [] rest := by
  induction cs generalizing acc with
  | nil => cases acc <;> rfl
  | cons c cs ih =>
    have hc : c ≠ '\n' := fun heq => h (heq ▸ List.mem_cons_self)
    rw [List.cons_append, linesFrom, ih fun hmem => h (List.mem_cons_of_mem _ hmem)]
    · simp
    · exact hc

theorem lines_cons {s : String} (h : OneLine s) (rest : List Char) :
    lines (s.toList ++ '\n' :: rest) = s.toList :: lines rest := by
  have hclose : closeLine s.toList.reverse = s.toList := by
    unfold closeLine
    split
    · next acc heq =>
      have hmem : '\r' ∈ s.toList := by
        rw [← List.mem_reverse, heq]
        exact List.mem_cons_self
      exact absurd rfl (h _ hmem).2
    · rw [List.reverse_reverse]
  rw [lines, linesFrom_append fun hmem => (h _ hmem).1 rfl, List.append_nil, hclose]
  rfl

/-- The lines of a text that was put together of lines. -/
theorem lines_intercalate {ls : List String} (h : ∀ l ∈ ls, OneLine l) (hne : ls ≠ []) :
    lines ("\n".intercalate ls ++ "\n").toList = ls.map String.toList := by
  induction ls with
  | nil => exact absurd rfl hne
  | cons l ls ih =>
    obtain ⟨hl, hls⟩ := List.forall_mem_cons.mp h
    cases ls with
    | nil =>
      rw [String.intercalate_singleton, String.toList_append]
      exact lines_cons hl []
    | cons l' ls =>
      rw [String.intercalate_cons_cons, String.append_assoc, String.append_assoc, String.toList_append,
        String.toList_append, List.map_cons, ← ih hls (by simp)]
      exact lines_cons hl _

theorem behindLast_append {mark cs tail text : List Char} (h : behindLast mark tail = some text) :
    behindLast mark (cs ++ tail) = some text := by
  induction cs with
  | nil => exact h
  | cons c cs ih => rw [List.cons_append, behindLast, ih]

theorem behindLast_eq_none {m : Char} {mark cs : List Char} (h : m ∉ cs) : behindLast (m :: mark) cs = none := by
  induction cs with
  | nil => rfl
  | cons c cs ih =>
    rw [List.mem_cons, not_or] at h
    rw [behindLast, ih h.2]
    simp [List.isPrefixOf, h.1]

end Text

namespace LineMap

theorem noted_space (cs : List Char) : noted (' ' :: cs) = noted cs := by
  unfold noted
  rw [Text.behindLast]
  cases Text.behindLast ['/', '/', ' '] cs <;> rfl

theorem noted_indented (n : Nat) (s : String) : noted ("".pushn ' ' n ++ s).toList = noted s.toList := by
  rw [String.toList_append, StackModule.toList_pushn]
  induction n with
  | zero => rfl
  | succ n ih => rw [List.replicate_succ, List.cons_append, noted_space, ih]

theorem isBlank_of_isDigit {c : Char} (h : c.isDigit = true) : Text.isBlank c = false := by
  have hdigit : 48 ≤ c.toNat ∧ c.toNat ≤ 57 := by
    simpa [Char.isDigit, UInt32.le_iff_toNat_le] using h
  simp only [Text.isBlank, Text.blankRanges, List.any_eq_false, List.forall_mem_cons, Bool.and_eq_true,
    decide_eq_true_eq, not_and, List.not_mem_nil, false_implies, implies_true, and_true]
  omega

theorem dropWhile_blank {cs : List Char} (h : ∀ c ∈ cs, c.isDigit = true) : cs.dropWhile Text.isBlank = cs := by
  cases cs with
  | nil => rfl
  | cons c cs => rw [List.dropWhile_cons_of_neg (by simp [isBlank_of_isDigit (h c List.mem_cons_self)])]

/-- The note behind a text is read from it, if it is a count at all. -/
theorem noted_note (s : String) (line : Nat) :
    noted (s ++ Script.noteText (some line)).toList = (some line).filter (· < UInt64.size) := by
  have hdigit : ∀ c ∈ Nat.toDigits 10 line, c.isDigit = true := fun c hc =>
    Nat.isDigit_of_mem_toDigits (by decide) (by decide) hc
  have hslash : '/' ∉ Nat.toDigits 10 line := fun hmem => absurd (hdigit _ hmem) (by decide)
  have hplus : '+' ∉ Nat.toDigits 10 line := fun hmem => absurd (hdigit _ hmem) (by decide)
  have htext : (s ++ Script.noteText (some line)).toList =
      (s.toList ++ [' ']) ++ '/' :: '/' :: ' ' :: Nat.toDigits 10 line := by
    simp [Script.noteText, Text.ofNat]
  have hbehind : Text.behindLast ['/', '/', ' '] ('/' :: '/' :: ' ' :: Nat.toDigits 10 line) =
      some (Nat.toDigits 10 line) := by
    simp [Text.behindLast, Text.behindLast_eq_none hslash, List.isPrefixOf]
  have htrim : Text.trim (Nat.toDigits 10 line) = Nat.toDigits 10 line := by
    rw [Text.trim, dropWhile_blank hdigit, dropWhile_blank fun c hc => hdigit c (List.mem_reverse.mp hc),
      List.reverse_reverse]
  rw [noted, htext, Text.behindLast_append hbehind, Option.bind_some, htrim, Text.readCount, Text.readDigits_toDigits]
  intro rest heq
  exact hplus (by simp [heq])

end LineMap

namespace Script

/-- What a line of a script says, apart from its note. -/
inductive Content
  | header
  | head (name : String)
  | statement (s : Statement)
  | tail
  deriving DecidableEq, Repr

namespace Content

def text : Content → String
  | header => Script.header
  | head name => "function " ++ name ++ "() \x7b"
  | statement s => s.text
  | tail => "\x7d"

/-- The names in a line, other than those of the host's functions. -/
def names : Content → List String
  | head name => [name]
  | statement s => s.declares ++ s.mentions
  | header | tail => []

/-- The lines that are not there for an instruction. -/
def unnoted : List Content := [header, tail, statement .close, statement .openElse, head entryName]

end Content

/-- A line of a script's text: the blanks in front of it, what it says, and the source line noted behind it. -/
structure Row where
  blanks : Nat
  content : Content
  note : Option Nat

namespace Row

def text (r : Row) : String := "".pushn ' ' r.blanks ++ r.content.text ++ noteText r.note

def deeper (r : Row) : Row := { r with blanks := r.blanks + 2 }

end Row

def Line.row (l : Line) : Row := ⟨2 * l.indent, .statement l.statement, l.note⟩

mutual

def Function.rows : Function → List Row
  | ⟨name, note, nested, body⟩ =>
    ⟨0, .head name, note⟩ :: (Function.rowsAll nested).map Row.deeper ++ body.map Line.row ++ [⟨0, .tail, none⟩]

def Function.rowsAll : List Function → List Row
  | [] => []
  | f :: fs => f.rows ++ Function.rowsAll fs

end

def rows (s : Script) : List Row :=
  ⟨0, .header, none⟩ :: s.globals.map Line.row ++ Function.rowsAll (s.functions ++ [s.entry])

open Text

theorem deeper_of_oneLine {s : String} (h : OneLine s) : deeper s = ["  " ++ s] := by
  have hany : (s.any fun c => c = '\n' || c = '\r') = false := by
    refine String.contains_bool_eq.trans (List.any_eq_false.mpr ?_)
    intro c hc
    simpa using h c hc
  rw [deeper, hany]
  rfl

theorem Row.text_deeper (r : Row) : r.deeper.text = "  " ++ r.text := by
  rw [← String.toList_inj]
  simp [Row.text, Row.deeper, StackModule.toList_pushn, List.replicate_succ]

theorem Row.text_margin (content : Content) (note : Option Nat) :
    Row.text ⟨0, content, note⟩ = content.text ++ noteText note := by
  change "" ++ content.text ++ noteText note = _
  rw [String.empty_append]

mutual

theorem Function.lines_eq (f : Function) (h : ∀ r ∈ f.rows, OneLine r.text) : f.lines = f.rows.map Row.text := by
  match f with
  | ⟨name, note, nested, body⟩ =>
    have hnested : ∀ r ∈ Function.rowsAll nested, OneLine r.text := by
      intro r hr
      have hdeeper := h r.deeper (by simp [Function.rows, List.mem_map_of_mem hr])
      rw [Row.text_deeper, oneLine_append] at hdeeper
      exact hdeeper.2
    have hbody : body.map Line.text = (body.map Line.row).map Row.text := by
      rw [List.map_map]
      rfl
    rw [Function.lines, Function.nestedLines_eq nested hnested, hbody, Function.rows]
    simp only [List.map_append, List.map_cons, List.map_nil, Row.text_margin]
    rfl

theorem Function.nestedLines_eq (fs : List Function) (h : ∀ r ∈ Function.rowsAll fs, OneLine r.text) :
    Function.nestedLines fs = ((Function.rowsAll fs).map Row.deeper).map Row.text := by
  match fs with
  | [] => rfl
  | f :: fs =>
    rw [Function.rowsAll, List.forall_mem_append] at h
    have hdeeper : (f.rows.map Row.text).flatMap deeper = (f.rows.map Row.deeper).map Row.text := by
      rw [List.flatMap_map, List.map_map, List.map_eq_flatMap]
      refine List.flatMap_congr fun r hr => ?_
      rw [deeper_of_oneLine (h.1 r hr), Function.comp_apply, Row.text_deeper]
    rw [Function.nestedLines, Function.lines_eq f h.1, Function.nestedLines_eq fs h.2, hdeeper, Function.rowsAll,
      List.map_append, List.map_append]

end

theorem Function.flatMap_lines (fs : List Function) (h : ∀ r ∈ Function.rowsAll fs, OneLine r.text) :
    fs.flatMap Function.lines = (Function.rowsAll fs).map Row.text := by
  induction fs with
  | nil => rfl
  | cons f fs ih =>
    rw [Function.rowsAll, List.forall_mem_append] at h
    rw [List.flatMap_cons, Function.lines_eq f h.1, ih h.2, Function.rowsAll, List.map_append]

theorem lines_text (s : Script) (h : ∀ r ∈ s.rows, OneLine r.text) :
    Text.lines s.text.toList = s.rows.map (·.text.toList) := by
  have hglobals : s.globals.map Line.text = (s.globals.map Line.row).map Row.text := by
    rw [List.map_map]
    rfl
  have hfunctions := Function.flatMap_lines (s.functions ++ [s.entry]) fun r hr => h r (by simp [rows, hr])
  have hlines : s.lines = s.rows.map Row.text := by
    rw [List.flatMap_append, List.flatMap_singleton] at hfunctions
    rw [lines, rows, List.map_append, List.map_cons, ← hfunctions, ← hglobals, Row.text_margin, List.append_assoc]
    rfl
  have hone : ∀ l ∈ s.rows.map Row.text, OneLine l := by
    intro l hl
    obtain ⟨r, hr, rfl⟩ := List.mem_map.mp hl
    exact h r hr
  rw [text, hlines, lines_intercalate hone (by simp [rows]), List.map_map]
  rfl

theorem oneLine_of_isWordChar {s : String} (h : ∀ c ∈ s.toList, Sexp.isWordChar c = true) : OneLine s := by
  intro c hc
  have hword := h c hc
  constructor
  · rintro rfl
    exact absurd hword (by decide)
  · rintro rfl
    exact absurd hword (by decide)

theorem oneLine_ofNat (n : Nat) : OneLine (ofNat n) := oneLine_of_isWordChar (StackModule.clean_ofNat n).2

theorem oneLine_ofWord (v : Int32) : OneLine (ofWord v) := oneLine_of_isWordChar (StackModule.clean_ofWord v).2

theorem oneLine_nameOf {name : String} (h : IsWord name) : OneLine (nameOf name) := by
  have hword : OneLine name := oneLine_of_isWordChar fun c hc => by simp [Sexp.isWordChar, h.isAlphanum hc]
  rw [nameOf_eq]
  split
  · exact oneLine_append.mpr ⟨hword, by decide⟩
  · exact hword

theorem oneLine_operation (op : BinOp) {left right : String} (hleft : OneLine left) (hright : OneLine right) :
    OneLine (operation op left right) := by
  cases op
  all_goals
    simp only [operation, BinOp.symbol, oneLine_append, hleft, hright, and_true, true_and]
    decide +kernel

theorem oneLine_intText {e : Folded} (h : ∀ n ∈ e.names, OneLine n) : OneLine (intText e) := by
  induction e with
  | const v =>
    rw [intText]
    split
    · simp only [oneLine_append, oneLine_ofWord, and_true]
      decide +kernel
    · exact oneLine_ofWord v
  | name n => exact h n (by simp [Folded.names])
  | binary op left right ihl ihr =>
    rw [Folded.names, List.forall_mem_append] at h
    have htext := oneLine_operation op (ihl h.1) (ihr h.2)
    simp only [intText]
    split
    · simp only [oneLine_append, htext, and_true]
      decide +kernel
    · exact htext

theorem oneLine_conditionText {e : Folded} (h : ∀ n ∈ e.names, OneLine n) : OneLine (conditionText e) := by
  cases e with
  | binary op left right =>
    rw [Folded.names, List.forall_mem_append] at h
    exact oneLine_operation op (oneLine_intText h.1) (oneLine_intText h.2)
  | const v => exact oneLine_intText h
  | name n => exact oneLine_intText h

theorem Statement.oneLine_text {s : Statement} (h : ∀ n ∈ s.declares ++ s.mentions, OneLine n) : OneLine s.text := by
  delta text
  cases s with
  | letVar name =>
    have hname := h name (by simp [declares])
    simp only [oneLine_append, hname, and_true]
    decide +kernel
  | constant name value =>
    have hname := h name (by simp [declares])
    simp only [oneLine_append, hname, oneLine_ofWord, and_true]
    decide +kernel
  | assign name value =>
    obtain ⟨hname, hvalue⟩ := List.forall_mem_cons.mp h
    simp only [oneLine_append, hname, oneLine_intText hvalue, and_true, true_and]
    decide +kernel
  | call name =>
    have hname := h name (by simp [mentions])
    simp only [oneLine_append, hname, true_and]
    decide +kernel
  | read name =>
    have hname := h name (by simp [mentions])
    simp only [oneLine_append, hname, true_and]
    decide +kernel
  | write value =>
    simp only [oneLine_append, oneLine_intText h, and_true]
    decide +kernel
  | openIf cond | elseIf cond | openWhile cond =>
    simp only [oneLine_append, oneLine_conditionText h, and_true]
    decide +kernel
  | openFor counter start bound =>
    obtain ⟨hcounter, hbounds⟩ := List.forall_mem_cons.mp h
    obtain ⟨hstart, hbound⟩ := List.forall_mem_append.mp hbounds
    simp only [oneLine_append, hcounter, oneLine_intText hstart, oneLine_intText hbound, and_true]
    decide +kernel
  | openElse | close => decide +kernel

theorem Content.oneLine_text {content : Content} (h : ∀ n ∈ content.names, OneLine n) : OneLine content.text := by
  cases content with
  | header | tail => decide +kernel
  | head name =>
    have hname := h name (by simp [names])
    simp only [text, oneLine_append, hname, and_true]
    decide +kernel
  | statement s => exact Statement.oneLine_text h

theorem Row.noted_text {r : Row} (h : r.note = none → r.content ∈ Content.unnoted) :
    LineMap.noted r.text.toList = r.note.filter (· < UInt64.size) := by
  cases hnote : r.note with
  | some line => rw [Row.text, hnote, LineMap.noted_note]
  | none =>
    have hunnoted : ∀ content ∈ Content.unnoted, LineMap.noted content.text.toList = none := by decide +kernel
    rw [Row.text, hnote]
    change LineMap.noted (_ ++ _ ++ "").toList = none
    rw [String.append_empty, LineMap.noted_indented]
    exact hunnoted _ (h hnote)

theorem Row.oneLine_text {r : Row} (h : ∀ n ∈ r.content.names, OneLine n) : OneLine r.text := by
  have hblanks : OneLine ("".pushn ' ' r.blanks) := by
    intro c hc
    rw [StackModule.toList_pushn] at hc
    rw [List.eq_of_mem_replicate hc]
    decide
  have hnote : OneLine (noteText r.note) := by
    cases r.note with
    | none => decide
    | some line => exact oneLine_append.mpr ⟨by decide, oneLine_ofNat line⟩
  exact oneLine_append.mpr ⟨oneLine_append.mpr ⟨hblanks, Content.oneLine_text h⟩, hnote⟩

/-- The notes that a line map reads from the text of a script are those of its lines. -/
theorem notes_text {s : Script} (hnames : ∀ r ∈ s.rows, ∀ n ∈ r.content.names, OneLine n)
    (hunnoted : ∀ r ∈ s.rows, r.note = none → r.content ∈ Content.unnoted) :
    LineMap.notes s.text = s.rows.map fun r => r.note.filter (· < UInt64.size) := by
  rw [LineMap.notes, lines_text s fun r hr => Row.oneLine_text (hnames r hr), List.map_map]
  exact List.map_congr_left fun r hr => Row.noted_text (hunnoted r hr)

section Names

variable {P : String → Prop}

/-- The names in lines outside functions are declared or mentioned there. -/
theorem names_of_sites {place : List String} {body : List Line}
    (hd : ∀ d ∈ Query.declarations.sites place (body.map (·.statement)), P d.2)
    (hm : ∀ u ∈ Query.mentions.sites place (body.map (·.statement)), P u.2) :
    ∀ r ∈ body.map Line.row, ∀ n ∈ r.content.names, P n := by
  intro r hr n hn
  obtain ⟨l, hl, rfl⟩ := List.mem_map.mp hr
  rcases List.mem_append.mp hn with hn | hn
  · exact hd (place, n) (by simpa [Query.sites, Query.declarations] using ⟨l, hl, hn⟩)
  · exact hm (place, n) (by simpa [Query.sites, Query.mentions] using ⟨l, hl, hn⟩)

mutual

theorem Function.names_of_sites (f : Function) (scope : List String)
    (hd : ∀ d ∈ f.sites .declarations scope, P d.2) (hm : ∀ u ∈ f.sites .mentions scope, P u.2) :
    ∀ r ∈ f.rows, ∀ n ∈ r.content.names, P n := by
  match f with
  | ⟨name, note, nested, body⟩ =>
    simp only [Function.sites, List.forall_mem_append] at hd hm
    obtain ⟨⟨hname, hdbody⟩, hdnested⟩ := hd
    obtain ⟨⟨-, hmbody⟩, hmnested⟩ := hm
    have hbody := Script.names_of_sites hdbody hmbody
    have hnested := Function.names_of_sitesAll nested (scope ++ [name]) hdnested hmnested
    simp only [Function.rows, List.forall_mem_append, List.forall_mem_cons, List.forall_mem_map]
    refine ⟨⟨⟨?_, hnested⟩, by simpa only [List.forall_mem_map] using hbody⟩, by simp [Content.names]⟩
    intro n hn
    rw [List.mem_singleton.mp hn]
    exact hname (scope, name) (by simp [Query.declarations])

theorem Function.names_of_sitesAll (fs : List Function) (scope : List String)
    (hd : ∀ d ∈ Function.sitesAll .declarations scope fs, P d.2)
    (hm : ∀ u ∈ Function.sitesAll .mentions scope fs, P u.2) :
    ∀ r ∈ Function.rowsAll fs, ∀ n ∈ r.content.names, P n := by
  match fs with
  | [] => simp [Function.rowsAll]
  | f :: fs =>
    simp only [Function.sitesAll, List.forall_mem_append] at hd hm
    rw [Function.rowsAll, List.forall_mem_append]
    exact ⟨Function.names_of_sites f scope hd.1 hm.1, Function.names_of_sitesAll fs scope hd.2 hm.2⟩

end

end Names

end Script

/-- The names that are used are declared, so that they are words. -/
theorem Fine.uses_words {s : Scopes} {level : Op.Level} {declared : List Site} {code : List Instr}
    (h : Fine s level code) (hs : Records s declared) : ∀ u ∈ codeSites Op.uses s code, IsWord u.2 := by
  induction code generalizing s level declared with
  | nil => simp [codeSites]
  | cons i code ih =>
    obtain ⟨ha, level', -, hrest⟩ := id h
    rw [codeSites, List.forall_mem_append]
    refine ⟨?_, ih hrest (hs.after ha)⟩
    intro u hu
    obtain ⟨name, hname, rfl⟩ := List.mem_map.mp hu
    obtain ⟨scope, -, hscope⟩ := h.meaning hs (Option.mem_toList.mp hname)
    exact hs.words (scope, name) (scopeOf_eq_some.mp hscope).2.1

/-- No name in a script breaks a line. -/
theorem Script.oneLine_names {code : List Instr} {script : Script} (hfine : Fine .initial (0, false) code)
    (h : ofCode code = .ok script) : ∀ r ∈ script.rows, ∀ n ∈ r.content.names, Text.OneLine n := by
  obtain ⟨hdeclared, hmentioned⟩ := sites_of_code hfine h
  have hd : ∀ d ∈ script.declared, Text.OneLine d.2 := by
    intro d hd
    rcases List.mem_cons.mp (hdeclared.mem_iff.mp hd) with rfl | hd
    · decide
    · obtain ⟨d, hcode, rfl⟩ := List.mem_map.mp hd
      exact oneLine_nameOf (hfine.records.words d hcode)
  have hm : ∀ u ∈ script.mentioned, Text.OneLine u.2 := by
    intro u hu
    obtain ⟨u, hcode, rfl⟩ := List.mem_map.mp (hmentioned.mem_iff.mp hu)
    exact oneLine_nameOf (hfine.uses_words .initial u hcode)
  rw [declared, sites, List.forall_mem_append] at hd
  rw [mentioned, sites, List.forall_mem_append] at hm
  rw [rows, List.forall_mem_append, List.forall_mem_cons]
  exact ⟨⟨by simp [Content.names], names_of_sites hd.1 hm.1⟩, Function.names_of_sitesAll _ [] hd.2 hm.2⟩

end PLZero
