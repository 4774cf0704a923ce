import PLZero.Proofs.Derived
import PLZero.Proofs.Pieces
import Mathlib.Data.List.Forall2
import Mathlib.Data.Nat.Digits.Defs

/-! The shape of a program read from source text: its names and numbers are those of the text, in order, its lines are
lines of the text, and no list is empty that later stages take for granted. -/

namespace PLZero

variable {t : Token} {ts : List Token}

open Grammar

inductive Leaf
  | name (text : String)
  | number (value : Int32)
  deriving DecidableEq, Repr

/-! Names and numbers in the order of the tokens. -/

def Expr.leaves : Expr → List Leaf
  | .binary _ left right _ => left.leaves ++ right.leaves
  | .literal value _ => [.number value]
  | .ident name _ => [.name name]

def Initial.leaf : Initial → Leaf
  | .number value => .number value
  | .constant name => .name name

def Decl.name : Decl → String
  | .var name _ _ | .const name _ _ => name

def Decl.init : Decl → Option Initial
  | .var _ init _ | .const _ init _ => init

def Decl.leaves (d : Decl) : List Leaf := .name d.name :: (d.init.map Initial.leaf).toList

mutual

def Stmt.leaves : Stmt → List Leaf
  | .assign name value _ => .name name :: value.leaves
  | .ifElse cond body elseIfs otherwise _ =>
    cond.leaves ++ (Stmt.leavesAll body ++ (ElseIf.leavesAll elseIfs ++
      match otherwise with
      | some other => Stmt.leavesAll other
      | none => []))
  | .whileDo cond body _ => cond.leaves ++ Stmt.leavesAll body
  | .forTo counter start bound body _ => .name counter :: (start.leaves ++ (bound.leaves ++ Stmt.leavesAll body))
  | .read names _ => names.map .name
  | .write values _ => values.flatMap Expr.leaves
  | .call name _ => [.name name]
  | .group body _ => Stmt.leavesAll body
  | .procedure name body _ => .name name :: Block.leaves body

def Stmt.leavesAll : List Stmt → List Leaf
  | [] => []
  | s :: ss => s.leaves ++ Stmt.leavesAll ss

def ElseIf.leavesAll : List ElseIf → List Leaf
  | [] => []
  | ⟨cond, body, _⟩ :: others => cond.leaves ++ (Stmt.leavesAll body ++ ElseIf.leavesAll others)

def Block.leaves : Block → List Leaf
  | ⟨decls, some s, _⟩ => decls.flatMap Decl.leaves ++ s.leaves
  | ⟨decls, none, _⟩ => decls.flatMap Decl.leaves

end

def Program.leaves (p : Program) : List Leaf := p.blocks.flatMap Block.leaves

/-! The lines of all nodes. -/

def Expr.lines : Expr → List Nat
  | .binary _ left right line => left.lines ++ line :: right.lines
  | .literal _ line => [line]
  | .ident _ line => [line]

def Decl.line : Decl → Nat
  | .var _ _ line => line
  | .const _ _ line => line

mutual

def Stmt.lines : Stmt → List Nat
  | .assign _ value line => line :: value.lines
  | .ifElse cond body elseIfs otherwise line =>
    line :: (cond.lines ++ (Stmt.linesAll body ++ (ElseIf.linesAll elseIfs ++
      match otherwise with
      | some other => Stmt.linesAll other
      | none => [])))
  | .whileDo cond body line => line :: (cond.lines ++ Stmt.linesAll body)
  | .forTo _ start bound body line => line :: (start.lines ++ (bound.lines ++ Stmt.linesAll body))
  | .read _ line => [line]
  | .write values line => line :: values.flatMap Expr.lines
  | .call _ line => [line]
  | .group body line => line :: Stmt.linesAll body
  | .procedure _ body line => line :: Block.lines body

def Stmt.linesAll : List Stmt → List Nat
  | [] => []
  | s :: ss => s.lines ++ Stmt.linesAll ss

def ElseIf.linesAll : List ElseIf → List Nat
  | [] => []
  | ⟨cond, body, line⟩ :: others => line :: (cond.lines ++ (Stmt.linesAll body ++ ElseIf.linesAll others))

def Block.lines : Block → List Nat
  | ⟨decls, some s, line⟩ => line :: (decls.map Decl.line ++ s.lines)
  | ⟨decls, none, line⟩ => line :: decls.map Decl.line

end

def Program.lines (p : Program) : List Nat := p.line :: p.blocks.flatMap Block.lines

/-! What is never missing. -/

def Decl.shaped : Decl → Bool
  | .var .. => true
  | d@(.const ..) => d.init.isSome

mutual

/-- Something is read or written, and behind `else` no `if` starts the branch. -/
def Stmt.shaped : Stmt → Bool
  | .ifElse _ body elseIfs otherwise _ =>
    Stmt.shapedAll body && ElseIf.shapedAll elseIfs &&
      match otherwise with
      | some other => !other.head?.any Stmt.isIf && Stmt.shapedAll other
      | none => true
  | .whileDo _ body _ => Stmt.shapedAll body
  | .forTo _ _ _ body _ => Stmt.shapedAll body
  | .read names _ => !names.isEmpty
  | .write values _ => !values.isEmpty
  | .group body _ => Stmt.shapedAll body
  | .procedure _ body _ => Block.shaped body
  | .assign .. | .call .. => true

def Stmt.shapedAll : List Stmt → Bool
  | [] => true
  | s :: ss => s.shaped && Stmt.shapedAll ss

def ElseIf.shapedAll : List ElseIf → Bool
  | [] => true
  | ⟨_, body, _⟩ :: others => Stmt.shapedAll body && ElseIf.shapedAll others

/-- A block declares something or has a statement; constants have values. -/
def Block.shaped : Block → Bool
  | ⟨decls, some s, _⟩ => decls.all Decl.shaped && s.shaped
  | ⟨decls, none, _⟩ => !decls.isEmpty && decls.all Decl.shaped

end

def Program.shaped (p : Program) : Bool := !p.blocks.isEmpty && p.blocks.all Block.shaped

def Token.bears (t : Token) : Bool := t.kind == .identifier || t.kind == .number

/-- What the token is read as. -/
def Leaf.ReadFrom (t : Token) : Leaf → Prop
  | .name text => t.kind = .identifier ∧ t.text = text
  | .number value => t.kind = .number ∧ Text.readWord t.text.toList = some value

/-- The names and numbers of the tokens are these, and the lines are lines of theirs. -/
structure Carries (ts : List Token) (leaves : List Leaf) (lines : List Nat) : Prop where
  leaves : List.Forall₂ Leaf.ReadFrom (ts.filter Token.bears) leaves
  lines : ∀ line ∈ lines, ∃ t ∈ ts, t.line = line

namespace Carries

variable {us : List Token} {xs ys : List Leaf} {ls ms : List Nat}

theorem nil : Carries [] [] [] := ⟨.nil, by simp⟩

theorem append (h : Carries ts xs ls) (h' : Carries us ys ms) : Carries (ts ++ us) (xs ++ ys) (ls ++ ms) := by
  refine ⟨?_, fun line hline => ?_⟩
  · rw [List.filter_append]
    exact List.rel_append h.leaves h'.leaves
  · obtain hline | hline := List.mem_append.mp hline
    · obtain ⟨t, ht, heq⟩ := h.lines line hline
      exact ⟨t, List.mem_append_left us ht, heq⟩
    · obtain ⟨t, ht, heq⟩ := h'.lines line hline
      exact ⟨t, List.mem_append_right ts ht, heq⟩

theorem mark (ht : t.bears = false) (h : Carries ts xs ls) : Carries (t :: ts) xs ls := by
  refine ⟨?_, fun line hline => ?_⟩
  · rw [List.filter_cons_of_neg (by simp [ht])]
    exact h.leaves
  · obtain ⟨u, hu, heq⟩ := h.lines line hline
    exact ⟨u, List.mem_cons_of_mem t hu, heq⟩

theorem name (ht : t.kind = .identifier) (h : Carries ts xs ls) : Carries (t :: ts) (.name t.text :: xs) ls := by
  refine ⟨?_, fun line hline => ?_⟩
  · rw [List.filter_cons_of_pos (by simp [Token.bears, ht])]
    exact .cons ⟨ht, rfl⟩ h.leaves
  · obtain ⟨u, hu, heq⟩ := h.lines line hline
    exact ⟨u, List.mem_cons_of_mem t hu, heq⟩

theorem lineOf (ht : t ∈ ts) (h : Carries ts xs ls) : Carries ts xs (t.line :: ls) :=
  ⟨h.leaves, List.forall_mem_cons.mpr ⟨⟨t, ht, rfl⟩, h.lines⟩⟩

theorem line (h : Carries (t :: ts) xs ls) : Carries (t :: ts) xs (t.line :: ls) := h.lineOf List.mem_cons_self

theorem optional {kind : TokenKind} {next : Option Token} (h : Optional kind next ts) (hk : kind ≠ .identifier ∧ kind ≠ .number) :
    Carries ts [] [] := by
  cases h with
  | absent => exact nil
  | present ht => exact mark (by simp [Token.bears, ht, hk]) nil

theorem listed {α : Type} {phrase : List Token → α → Prop} {as : List α} {f : α → List Leaf} {g : α → List Nat}
    (h : Listed phrase ts as) (hp : ∀ ts a, phrase ts a → Carries ts (f a) (g a)) :
    Carries ts (as.flatMap f) (as.flatMap g) := by
  induction h with
  | one h => simpa using hp _ _ h
  | cons h hc _ ih => exact (hp _ _ h).append (mark (by simp [Token.bears, hc]) ih)

end Carries

theorem Token.bears_of_is {kind : TokenKind} {text : String} (h : t.is kind text = true)
    (hk : kind ≠ .identifier ∧ kind ≠ .number) : t.bears = false := by
  simp [Token.bears, (Token.is_iff.mp h).1, hk]

theorem Token.bears_of_kind {kind : TokenKind} (h : t.kind = kind) (hk : kind ≠ .identifier ∧ kind ≠ .number) :
    t.bears = false := by
  simp [Token.bears, h, hk]

theorem Token.bears_of_keyword {word : String} (h : t.isKeyword word = true) : t.bears = false :=
  bears_of_is h (by decide)

namespace Carries

theorem number {v : Int32} (ht : t.kind = .number) (hv : Text.readWord t.text.toList = some v) :
    Carries [t] [.number v] [] := by
  refine ⟨?_, by simp⟩
  rw [List.filter_cons_of_pos (by simp [Token.bears, ht])]
  exact .cons ⟨ht, hv⟩ .nil

end Carries

theorem Expr.Derivation.carries {tier : Tier} {e : Expr} (h : e.Derivation tier ts) :
    Carries ts e.leaves e.lines := by
  induction h with
  | number hk hv => exact (Carries.number hk hv).line
  | name hk => exact (Carries.nil.name hk).line
  | parens hl _ hr ih =>
    have hclose := Carries.nil.mark (Token.bears_of_is hr (by decide))
    have hboth := (ih.append hclose).mark (Token.bears_of_is hl (by decide))
    simpa using hboth
  | factor _ ih | product _ ih | sum _ ih => exact ih
  | multiply _ ht _ _ ihl ihr | add _ ht _ _ ihl ihr | compare _ ht _ _ ihl ihr =>
    exact ihl.append (ihr.mark (Token.bears_of_kind ht.1 (by decide))).line

theorem Initial.Derivation.carries {i : Initial} (h : i.Derivation t) : Carries [t] [i.leaf] [] := by
  cases h with
  | number hk hv => exact .number hk hv
  | constant hk => exact Carries.nil.name hk

namespace Decl

variable {ds : List Decl}

theorem Constant.carries {d : Decl} (h : Constant ts d) : Carries ts d.leaves [d.line] ∧ d.shaped = true := by
  cases h with
  | mk hn he hi => exact ⟨((hi.carries.mark (Token.bears_of_kind he.1 (by decide))).name hn).line, rfl⟩

theorem Variable.carries {d : Decl} (h : Variable ts d) : Carries ts d.leaves [d.line] ∧ d.shaped = true := by
  cases h with
  | plain hn => exact ⟨(Carries.nil.name hn).line, rfl⟩
  | initial hn he hi => exact ⟨((hi.carries.mark (Token.bears_of_kind he.1 (by decide))).name hn).line, rfl⟩

theorem carries_of_listed {phrase : List Token → Decl → Prop}
    (h : Listed phrase ts ds) (hp : ∀ {ts d}, phrase ts d → Carries ts d.leaves [d.line] ∧ d.shaped = true) :
    Carries ts (ds.flatMap leaves) (ds.map line) ∧ ds.all shaped = true := by
  constructor
  · have hall : Carries ts (ds.flatMap leaves) (ds.flatMap fun d => [d.line]) := .listed h fun _ _ hd => (hp hd).1
    rwa [← List.map_eq_flatMap] at hall
  · induction h with
    | one h => simp [(hp h).2]
    | cons h _ _ ih => simp [(hp h).2, ih]

theorem Section.carries (h : Section ts ds) :
    Carries ts (ds.flatMap leaves) (ds.map line) ∧ ds.all shaped = true := by
  cases h with
  | const hw hd hs | var hw hd hs =>
    have hlist := carries_of_listed hd (by first | exact Constant.carries | exact Variable.carries)
    have hclose := Carries.nil.mark (Token.bears_of_kind hs (by decide))
    have hboth := (hlist.1.append hclose).mark (Token.bears_of_keyword hw)
    rw [List.append_nil, List.append_nil] at hboth
    exact ⟨hboth, hlist.2⟩

theorem Derivations.carries (h : Derivations ts ds) :
    Carries ts (ds.flatMap leaves) (ds.map line) ∧ ds.all shaped = true := by
  induction h with
  | nil => exact ⟨.nil, rfl⟩
  | cons h _ ih =>
    rw [List.flatMap_append, List.map_append, List.all_append]
    exact ⟨h.carries.1.append ih.1, by rw [h.carries.2, ih.2]; rfl⟩

end Decl

namespace Carries

variable {us : List Token} {xs ys : List Leaf} {ls ms : List Nat}

theorem before (h : Carries ts xs ls) (h' : Carries us [] []) : Carries (ts ++ us) xs ls := by
  have hboth := h.append h'
  rwa [List.append_nil, List.append_nil] at hboth

theorem names {ids : List String} (h : Listed Name ts ids) : Carries ts (ids.map .name) [] := by
  induction h with
  | one h =>
    cases h with
    | mk hk => exact nil.name hk
  | cons h hc _ ih =>
    cases h with
    | mk hk => exact (ih.mark (Token.bears_of_kind hc (by decide))).name hk

end Carries

mutual

theorem Stmt.carries {names : List String} {next : Option Token} {ts : List Token} (s : Stmt)
    (h : s.Derivation names next ts) :
    Carries ts s.leaves s.lines ∧ s.shaped = true := by
  match s with
  | .assign name value line =>
    cases h with
    | assign hn hb hv hs =>
      have hsemi := Carries.nil.mark (Token.bears_of_kind hs (by decide))
      exact ⟨(((hv.carries.before hsemi).mark (Token.bears_of_kind hb (by decide))).name hn).line, rfl⟩
  | .ifElse cond body elseIfs (some other) line =>
    cases h with
    | ifElse hw hc ht hb he ho hl hs =>
      cases ho with
      | present hw' hn hother =>
        obtain ⟨hbody, hbody'⟩ := Stmt.carriesAll body hb
        obtain ⟨helse, helse'⟩ := ElseIf.carriesAll elseIfs he
        obtain ⟨hlast, hlast'⟩ := Stmt.carriesAll other hother
        have hsemi := (Carries.optional hs (by decide)).mark (Token.bears_of_keyword hl)
        have hrest := helse.append ((hlast.mark (Token.bears_of_keyword hw')).before hsemi)
        have hthen := (hbody.append hrest).mark (Token.bears_of_keyword ht)
        refine ⟨((hc.carries.append hthen).mark (Token.bears_of_keyword hw)).line, ?_⟩
        rw [Stmt.shaped, hbody', helse', hother.not_if_iff.mp hn, hlast']
        rfl
  | .ifElse cond body elseIfs none line =>
    cases h with
    | ifElse hw hc ht hb he ho hl hs =>
      cases ho
      obtain ⟨hbody, hbody'⟩ := Stmt.carriesAll body hb
      obtain ⟨helse, helse'⟩ := ElseIf.carriesAll elseIfs he
      have hsemi := (Carries.optional hs (by decide)).mark (Token.bears_of_keyword hl)
      have hthen := (hbody.append (helse.append hsemi)).mark (Token.bears_of_keyword ht)
      refine ⟨((hc.carries.append hthen).mark (Token.bears_of_keyword hw)).line, ?_⟩
      rw [Stmt.shaped, hbody', helse']
      rfl
  | .whileDo cond body line =>
    cases h with
    | whileDo hw hc hd hb hl hs =>
      obtain ⟨hbody, hbody'⟩ := Stmt.carriesAll body hb
      have hsemi := (Carries.optional hs (by decide)).mark (Token.bears_of_keyword hl)
      have hrest := (hbody.before hsemi).mark (Token.bears_of_keyword hd)
      exact ⟨((hc.carries.append hrest).mark (Token.bears_of_keyword hw)).line, hbody'⟩
  | .forTo counter start bound body line =>
    cases h with
    | forTo hw hn ha hf ht hm hd hb hl hs =>
      obtain ⟨hbody, hbody'⟩ := Stmt.carriesAll body hb
      have hsemi := (Carries.optional hs (by decide)).mark (Token.bears_of_keyword hl)
      have hrest := (hbody.before hsemi).mark (Token.bears_of_keyword hd)
      have hlimit := (hm.carries.append hrest).mark (Token.bears_of_keyword ht)
      have hfirst := (hf.carries.append hlimit).mark (Token.bears_of_kind ha (by decide))
      exact ⟨((hfirst.name hn).mark (Token.bears_of_keyword hw)).line, hbody'⟩
  | .read ids line =>
    cases h with
    | read hw hl hi hr hs =>
      have hclose := (Carries.nil.mark (Token.bears_of_kind hs (by decide))).mark (Token.bears_of_is hr (by decide))
      have hlist := (Carries.names hi).before hclose
      refine ⟨((hlist.mark (Token.bears_of_is hl (by decide))).mark (Token.bears_of_keyword hw)).line, ?_⟩
      simpa [Stmt.shaped] using hi.ne_nil
    | readOne hw hn hs =>
      have hsemi := Carries.nil.mark (Token.bears_of_kind hs (by decide))
      exact ⟨((hsemi.name hn).mark (Token.bears_of_keyword hw)).line, rfl⟩
  | .write values line =>
    cases h with
    | write hw hl hv hr hs =>
      have hclose := (Carries.nil.mark (Token.bears_of_kind hs (by decide))).mark (Token.bears_of_is hr (by decide))
      have hlist := (Carries.listed hv fun _ _ h => h.carries).before hclose
      refine ⟨((hlist.mark (Token.bears_of_is hl (by decide))).mark (Token.bears_of_keyword hw)).line, ?_⟩
      simpa [Stmt.shaped] using hv.ne_nil
    | writeBare hw hv hs =>
      have hsemi := Carries.nil.mark (Token.bears_of_kind hs (by decide))
      have hlist := (Carries.listed hv fun _ _ h => h.carries).before hsemi
      exact ⟨(hlist.mark (Token.bears_of_keyword hw)).line, by simpa [Stmt.shaped] using hv.ne_nil⟩
  | .call name line =>
    cases h with
    | bareCall hn hm hs =>
      have hsemi := Carries.nil.mark (Token.bears_of_kind hs (by decide))
      exact ⟨(hsemi.name hn).line, rfl⟩
    | call hw hn hs =>
      have hsemi := Carries.nil.mark (Token.bears_of_kind hs (by decide))
      exact ⟨((hsemi.name hn).mark (Token.bears_of_keyword hw)).line, rfl⟩
  | .group body line =>
    cases h with
    | group hw hb hl hs =>
      obtain ⟨hbody, hbody'⟩ := Stmt.carriesAll body hb
      have hsemi := (Carries.optional hs (by decide)).mark (Token.bears_of_keyword hl)
      exact ⟨((hbody.before hsemi).mark (Token.bears_of_keyword hw)).line, hbody'⟩
  | .procedure name body line =>
    cases h with
    | procedure hw hn hs hb hl =>
      obtain ⟨hbody, hbody'⟩ := Block.carries body hb
      have hrest := (hbody.before (.optional hl (by decide))).mark (Token.bears_of_kind hs (by decide))
      exact ⟨((hrest.name hn).mark (Token.bears_of_keyword hw)).line, hbody'⟩

theorem Stmt.carriesAll {names : List String} {ts : List Token} (ss : List Stmt) (h : Stmt.Derivations names ts ss) :
    Carries ts (Stmt.leavesAll ss) (Stmt.linesAll ss) ∧ Stmt.shapedAll ss = true := by
  match ss with
  | [] =>
    cases h
    exact ⟨.nil, rfl⟩
  | s :: ss =>
    cases h with
    | cons hs hr =>
      obtain ⟨hfirst, hfirst'⟩ := Stmt.carries s hs
      obtain ⟨hrest, hrest'⟩ := Stmt.carriesAll ss hr
      exact ⟨hfirst.append hrest, by rw [Stmt.shapedAll, hfirst', hrest']; rfl⟩

theorem ElseIf.carriesAll {names : List String} {ts : List Token} (es : List ElseIf)
    (h : ElseIf.Derivations names ts es) :
    Carries ts (ElseIf.leavesAll es) (ElseIf.linesAll es) ∧ ElseIf.shapedAll es = true := by
  match es with
  | [] =>
    cases h
    exact ⟨.nil, rfl⟩
  | ⟨cond, body, line⟩ :: others =>
    cases h with
    | cons he hr =>
      cases he with
      | mk hw hi hc ht hb =>
        obtain ⟨hbody, hbody'⟩ := Stmt.carriesAll body hb
        obtain ⟨hrest, hrest'⟩ := ElseIf.carriesAll others hr
        have hthen := hbody.mark (Token.bears_of_keyword ht)
        have hguard := ((hc.carries.append hthen).mark (Token.bears_of_keyword hi)).mark (Token.bears_of_keyword hw)
        have hboth := hguard.line.append hrest
        refine ⟨?_, by rw [ElseIf.shapedAll, hbody', hrest']; rfl⟩
        simpa only [ElseIf.leavesAll, ElseIf.linesAll, List.append_assoc, List.cons_append] using hboth

theorem Block.carries {names : List String} {next : Option Token} {ts : List Token} (b : Block)
    (h : b.Derivation names next ts) :
    Carries ts b.leaves b.lines ∧ b.shaped = true := by
  match b with
  | ⟨decls, some s, line⟩ =>
    cases h with
    | stmt hd hs ht =>
      obtain ⟨hstmt, hstmt'⟩ := Stmt.carries s hs
      refine ⟨(hd.carries.1.append hstmt).lineOf (List.mem_of_mem_head? ht), ?_⟩
      rw [Block.shaped, hd.carries.2, hstmt']
      rfl
  | ⟨decls, none, line⟩ =>
    cases h with
    | decls hd =>
      refine ⟨hd.carries.1.line, ?_⟩
      rw [Block.shaped, hd.carries.2, List.isEmpty_eq_false_iff.mpr hd.starts.2]
      rfl

end

theorem Block.carriesAll {names : List String} {bs : List Block} (h : Block.Derivations names ts bs) :
    Carries ts (bs.flatMap Block.leaves) (bs.flatMap Block.lines) ∧ bs ≠ [] ∧ bs.all Block.shaped = true := by
  induction h with
  | @last _ _ b h =>
    obtain ⟨hblock, hblock'⟩ := Block.carries b h
    exact ⟨by simpa using hblock, by simp, by simp [hblock']⟩
  | @cons _ _ _ b _ h _ ih =>
    obtain ⟨hblock, hblock'⟩ := Block.carries b h
    exact ⟨hblock.append ih.1, by simp, by simp [hblock', ih.2.2]⟩

theorem Program.Derivation.carries {p : Program} (h : p.Derivation ts) :
    Carries ts p.leaves p.lines ∧ p.shaped = true := by
  cases h with
  | mk hb hd =>
    obtain ⟨hblocks, hne, hall⟩ := Block.carriesAll hb
    refine ⟨(hblocks.before (.optional hd (by decide))).line, ?_⟩
    rw [Program.shaped, hall, List.isEmpty_eq_false_iff.mpr hne]
    rfl

namespace Segment

theorem IsLexeme.number_digits {text : List Char} (h : IsLexeme .number text) : ∀ c ∈ text, c.isDigit = true := by
  generalize hkind : TokenKind.number = kind at h
  cases h with
  | number hc hcs => exact List.forall_mem_cons.mpr ⟨hc, hcs⟩
  | word => split at hkind <;> cases hkind
  | symbol h =>
    have hsymbols : ∀ e ∈ symbols, e.1 ≠ .number := by decide
    exact absurd hkind.symm (hsymbols _ h)

end Segment

namespace Text

/-- The number that digits denote: the last counts ones, and each counts ten times the next. -/
def decimal (cs : List Char) : Nat := Nat.ofDigits 10 (cs.reverse.map digitValue)

theorem foldl_eq_decimal (cs : List Char) : cs.foldl (fun n c => 10 * n + digitValue c) 0 = decimal cs := by
  rw [decimal, Nat.ofDigits_eq_foldr, List.foldr_map, List.foldr_reverse]
  congr 1
  funext n c
  exact Nat.add_comm _ _

theorem readInt_of_digits {cs : List Char} {i : Int} (hd : ∀ c ∈ cs, c.isDigit = true) (h : readInt cs = some i) :
    i = decimal cs := by
  -- a digit is no sign
  unfold readInt at h
  split at h
  · exact absurd (hd '-' List.mem_cons_self) (by decide)
  · exact absurd (hd '+' List.mem_cons_self) (by decide)
  · obtain ⟨n, hn, heq⟩ := Option.map_eq_some_iff.mp h
    unfold readDigits at hn
    split at hn
    · cases hn
      rw [← heq, foldl_eq_decimal]
    · cases hn

theorem readWord_of_digits {cs : List Char} {v : Int32} (hd : ∀ c ∈ cs, c.isDigit = true) (h : readWord cs = some v) :
    v.toInt = decimal cs ∧ decimal cs < 2 ^ 31 := by
  obtain ⟨i, hi, heq⟩ := Option.map_eq_some_iff.mp h
  obtain ⟨hread, hrange⟩ := Option.filter_eq_some_iff.mp hi
  have hvalue := readInt_of_digits hd hread
  simp only [Bool.and_eq_true, decide_eq_true_eq] at hrange
  have hmin : -2147483648 ≤ i := hrange.1
  have hmax : i ≤ 2147483647 := hrange.2
  rw [← heq, Int32.toInt_ofInt_of_le hmin (Int.lt_add_one_of_le hmax)]
  exact ⟨hvalue, by omega⟩

end Text

/-- What a token of a source text is read as: a word that is no keyword, or the number that its digits denote. -/
def Leaf.Written (t : Token) : Leaf → Prop
  | .name text => t.kind = .identifier ∧ t.text = text ∧ IsWord text ∧ text ∉ keywords
  | .number value => t.kind = .number ∧ value.toInt = Text.decimal t.text.toList ∧ Text.decimal t.text.toList < 2 ^ 31

theorem Leaf.ReadFrom.written {leaf : Leaf} (ht : Segment.IsLexeme t.kind t.text.toList)
    (h : leaf.ReadFrom t) : leaf.Written t := by
  cases leaf with
  | name text =>
    obtain ⟨hkind, htext⟩ := h
    rw [hkind] at ht
    have hword := ht.identifier
    rw [String.ofList_toList, htext] at hword
    exact ⟨hkind, htext, hword⟩
  | number value =>
    obtain ⟨hkind, hvalue⟩ := h
    rw [hkind] at ht
    exact ⟨hkind, Text.readWord_of_digits ht.number_digits hvalue⟩

namespace Program

/-- The names and numbers of a program read from source text are its identifiers and numerals, in order. Each name is a
word and no keyword, and each number is what its digits say; the lines are lines of the text, and nothing is missing. -/
theorem shape_of_source {source : String} {p : Program} (h : Program.ofSource source = .ok p) :
    List.Forall₂ Leaf.Written ((Scan.ofSource source).tokens.filter Token.bears) p.leaves ∧
    (∀ line ∈ p.lines, 1 ≤ line ∧ line ≤ 1 + source.toList.count '\n') ∧ p.shaped = true := by
  obtain ⟨ts, line, htokens, hts⟩ := Scan.ofSource_tokens source
  obtain ⟨us, last, hus, hne, hend, hd⟩ := ofTokens_ok h
  have heq : us = ts := by
    rw [← Input.takeWhile_of_current hus hne hend, htokens,
      List.takeWhile_append_of_pos (by simpa using fun t ht => (hts t ht).1.kind_ne_eof)]
    simp
  subst heq
  obtain ⟨⟨hleaves, hlines⟩, hshaped⟩ := hd.carries
  refine ⟨?_, fun line hline => ?_, hshaped⟩
  · have hread := (List.forall₂_and_left _ _).mpr ⟨fun t ht => (hts t (List.mem_of_mem_filter ht)).1, hleaves⟩
    have hfilter : (Scan.ofSource source).tokens.filter Token.bears = us.filter Token.bears := by
      rw [htokens, List.filter_append]
      exact List.append_nil _
    rw [hfilter]
    exact hread.imp fun t leaf h => h.2.written h.1
  · obtain ⟨t, ht, heq⟩ := hlines line hline
    exact heq ▸ (hts t ht).2

theorem shape_of_source_procedure : ∃ source p,
    source = "const k = 007; var x;\nprocedure p; read (x); ;\nif x < k then p; else write (x + 10); endif." ∧
    Program.ofSource source = .ok p ∧
    p.leaves = [.name "k", .number 7, .name "x", .name "p", .name "x", .name "x", .name "k", .name "p", .name "x",
      .number 10] ∧
    List.Forall₂ Leaf.Written ((Scan.ofSource source).tokens.filter Token.bears) p.leaves ∧
    (∀ line ∈ p.lines, 1 ≤ line ∧ line ≤ 1 + source.toList.count '\n') ∧ p.shaped = true := by
  refine ⟨_, _, rfl, rfl, rfl, ?_⟩
  exact shape_of_source rfl

end Program

end PLZero
