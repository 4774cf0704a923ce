import PLZero.Program
import PLZero.Text.Decimal
import PLZero.Token

/-! The grammar of the source language. A derivation says which tokens, in order and each of them once, are
read as which tree; the line of every node is that of the token that introduces it. What the plain rules leave
open is settled by the token that comes next in a list of statements or blocks: an optional semicolon that is there
belongs to the innermost phrase that ends before it, a block without a statement ends only where no part of a block
starts, and `else` directly before `if` starts another guarded branch. -/

namespace PLZero

def Token.Writes (t : Token) (op : BinOp) : Prop := t.kind = .operator ∧ t.text = op.symbol

namespace Grammar

/-- At most one token, of this kind; there is none only if it does not come next. -/
inductive Optional (kind : TokenKind) (next : Option Token) : List Token → Prop
  | absent (h : ∀ t ∈ next, t.kind ≠ kind) : Optional kind next []
  | present {t : Token} (h : t.kind = kind) : Optional kind next [t]

/-- The words that declarations and statements start with. -/
def partWords : List String :=
  ["const", "var", "if", "while", "for", "read", "write", "call", "begin", "procedure"]

def BeginsPart (t : Token) : Prop := t.kind = .identifier ∨ t.kind = .keyword ∧ t.text ∈ partWords

/-- One phrase or several with commas between them. -/
inductive Listed {α : Type} (phrase : List Token → α → Prop) : List Token → List α → Prop
  | one {ts : List Token} {a : α} (h : phrase ts a) : Listed phrase ts [a]
  | cons {ts us : List Token} {comma : Token} {a : α} {as : List α} (h : phrase ts a)
      (hc : comma.kind = .comma) (hr : Listed phrase us as) : Listed phrase (ts ++ comma :: us) (a :: as)

theorem Listed.map {α β : Type} {phrase : List Token → α → Prop} {phrase' : List Token → β → Prop} {f : α → β}
    {ts : List Token} {as : List α} (h : Listed phrase ts as) (hf : ∀ ts a, phrase ts a → phrase' ts (f a)) :
    Listed phrase' ts (as.map f) := by
  induction h with
  | one h => exact .one (hf _ _ h)
  | cons h hc _ ih => exact .cons (hf _ _ h) hc ih

theorem Listed.ne_nil {α : Type} {phrase : List Token → α → Prop} {ts : List Token} {as : List α}
    (h : Listed phrase ts as) : as ≠ [] := by
  cases h <;> simp

inductive Name : List Token → String → Prop
  | mk {t : Token} (h : t.kind = .identifier) : Name [t] t.text

/-- What an expression is made of: sums compared, products added up, factors multiplied. -/
inductive Tier
  | expression | sum | product | factor
  deriving DecidableEq, Repr

end Grammar

open Grammar

/-- Operators of one tier group to the left, and only one comparison stands between two parentheses. -/
inductive Expr.Derivation : Tier → List Token → Expr → Prop
  | number {t : Token} {v : Int32} (hk : t.kind = .number) (hv : Text.readWord t.text.toList = some v) :
    Derivation .factor [t] (.literal v t.line)
  | name {t : Token} (hk : t.kind = .identifier) : Derivation .factor [t] (.ident t.text t.line)
  | parens {l r : Token} {ts : List Token} {e : Expr} (hl : l.is .parenthesis "(")
      (he : Derivation .expression ts e) (hr : r.is .parenthesis ")") : Derivation .factor (l :: (ts ++ [r])) e
  | factor {ts : List Token} {e : Expr} (h : Derivation .factor ts e) : Derivation .product ts e
  | multiply {t : Token} {op : BinOp} {ls rs : List Token} {l r : Expr} (hl : Derivation .product ls l)
      (ht : t.Writes op) (hop : op.level = .multiplicative) (hr : Derivation .factor rs r) :
    Derivation .product (ls ++ t :: rs) (.binary op l r t.line)
  | product {ts : List Token} {e : Expr} (h : Derivation .product ts e) : Derivation .sum ts e
  | add {t : Token} {op : BinOp} {ls rs : List Token} {l r : Expr} (hl : Derivation .sum ls l)
      (ht : t.Writes op) (hop : op.level = .additive) (hr : Derivation .product rs r) :
    Derivation .sum (ls ++ t :: rs) (.binary op l r t.line)
  | sum {ts : List Token} {e : Expr} (h : Derivation .sum ts e) : Derivation .expression ts e
  | compare {t : Token} {op : BinOp} {ls rs : List Token} {l r : Expr} (hl : Derivation .sum ls l)
      (ht : t.Writes op) (hop : op.level = .relational) (hr : Derivation .sum rs r) :
    Derivation .expression (ls ++ t :: rs) (.binary op l r t.line)

inductive Initial.Derivation : Token → Initial → Prop
  | number {t : Token} {v : Int32} (hk : t.kind = .number) (hv : Text.readWord t.text.toList = some v) :
    Derivation t (.number v)
  | constant {t : Token} (hk : t.kind = .identifier) : Derivation t (.constant t.text)

namespace Decl

inductive Constant : List Token → Decl → Prop
  | mk {name eq t : Token} {i : Initial} (hn : name.kind = .identifier) (he : eq.Writes .eq)
      (hi : i.Derivation t) : Constant [name, eq, t] (.const name.text (some i) name.line)

inductive Variable : List Token → Decl → Prop
  | plain {name : Token} (hn : name.kind = .identifier) : Variable [name] (.var name.text none name.line)
  | initial {name eq t : Token} {i : Initial} (hn : name.kind = .identifier) (he : eq.Writes .eq)
      (hi : i.Derivation t) : Variable [name, eq, t] (.var name.text (some i) name.line)

/-- The declarations behind one `const` or `var`. -/
inductive Section : List Token → List Decl → Prop
  | const {word semi : Token} {ts : List Token} {ds : List Decl} (hw : word.isKeyword "const")
      (hd : Listed Constant ts ds) (hs : semi.kind = .semicolon) : Section (word :: (ts ++ [semi])) ds
  | var {word semi : Token} {ts : List Token} {ds : List Decl} (hw : word.isKeyword "var")
      (hd : Listed Variable ts ds) (hs : semi.kind = .semicolon) : Section (word :: (ts ++ [semi])) ds

inductive Derivations : List Token → List Decl → Prop
  | nil : Derivations [] []
  | cons {ts us : List Token} {ds es : List Decl} (h : Section ts ds) (hr : Derivations us es) :
    Derivations (ts ++ us) (ds ++ es)

end Decl

mutual

/-- The procedures that can be called by their bare names behind a statement, from those before it: a
procedure counts from its declaration to the end of the body that it is declared in. -/
def Stmt.registered (names : List String) : Stmt → List String
  | .ifElse _ body elseIfs otherwise _ =>
    match otherwise with
    | some other => Stmt.registeredAll (ElseIf.registeredAll (Stmt.registeredAll names body) elseIfs) other
    | none => ElseIf.registeredAll (Stmt.registeredAll names body) elseIfs
  | .whileDo _ body _ => Stmt.registeredAll names body
  | .forTo _ _ _ body _ => Stmt.registeredAll names body
  | .group body _ => Stmt.registeredAll names body
  | .procedure name _ _ => name :: names
  | .assign .. | .read .. | .write .. | .call .. => names

def Stmt.registeredAll (names : List String) : List Stmt → List String
  | [] => names
  | s :: ss => Stmt.registeredAll (s.registered names) ss

def ElseIf.registeredAll (names : List String) : List ElseIf → List String
  | [] => names
  | ⟨_, body, _⟩ :: others => ElseIf.registeredAll (Stmt.registeredAll names body) others

end

theorem ElseIf.registeredAll_cons (names : List String) (e : ElseIf) (es : List ElseIf) :
    ElseIf.registeredAll names (e :: es) = ElseIf.registeredAll (Stmt.registeredAll names e.body) es := by
  obtain ⟨_, body, _⟩ := e
  rw [ElseIf.registeredAll]

theorem Stmt.registered_ifElse (names : List String) (cond : Expr) (body : List Stmt) (elseIfs : List ElseIf)
    (otherwise : Option (List Stmt)) (line : Nat) :
    (Stmt.ifElse cond body elseIfs otherwise line).registered names =
      (otherwise.map (Stmt.registeredAll (ElseIf.registeredAll (Stmt.registeredAll names body) elseIfs))).getD
        (ElseIf.registeredAll (Stmt.registeredAll names body) elseIfs) := by
  cases otherwise <;> rfl

def Block.registered (names : List String) (b : Block) : List String := Stmt.registeredAll names b.stmt.toList

mutual

/-- A statement among procedures of these names, which were declared before it in a scope around it, and the token
of the same list that comes next, if there is one. -/
inductive Stmt.Derivation : List String → Option Token → List Token → Stmt → Prop
  | assign {names : List String} {next : Option Token} {name becomes semi : Token} {ts : List Token} {value : Expr}
      (hn : name.kind = .identifier) (hb : becomes.kind = .assign) (hv : value.Derivation .expression ts)
      (hs : semi.kind = .semicolon) :
    Stmt.Derivation names next (name :: becomes :: (ts ++ [semi])) (.assign name.text value name.line)
  | bareCall {names : List String} {next : Option Token} {name semi : Token} (hn : name.kind = .identifier)
      (hm : name.text ∈ names) (hs : semi.kind = .semicolon) :
    Stmt.Derivation names next [name, semi] (.call name.text name.line)
  | call {names : List String} {next : Option Token} {word name semi : Token} (hw : word.isKeyword "call")
      (hn : name.kind = .identifier) (hs : semi.kind = .semicolon) :
    Stmt.Derivation names next [word, name, semi] (.call name.text word.line)
  | ifElse {names : List String} {next : Option Token} {word thn close : Token} {cs bs es os semi : List Token} {cond : Expr}
      {body : List Stmt} {elseIfs : List ElseIf} {otherwise : Option (List Stmt)} (hw : word.isKeyword "if")
      (hc : cond.Derivation .expression cs) (ht : thn.isKeyword "then") (hb : Stmt.Derivations names bs body)
      (he : ElseIf.Derivations (Stmt.registeredAll names body) es elseIfs)
      (ho : Stmt.Last (ElseIf.registeredAll (Stmt.registeredAll names body) elseIfs) os otherwise)
      (hl : close.isKeyword "endif") (hs : Optional .semicolon next semi) :
    Stmt.Derivation names next (word :: (cs ++ thn :: (bs ++ (es ++ (os ++ close :: semi)))))
      (.ifElse cond body elseIfs otherwise word.line)
  | whileDo {names : List String} {next : Option Token} {word start close : Token} {cs bs semi : List Token} {cond : Expr}
      {body : List Stmt} (hw : word.isKeyword "while") (hc : cond.Derivation .expression cs)
      (hd : start.isKeyword "do") (hb : Stmt.Derivations names bs body) (hl : close.isKeyword "endwhile")
      (hs : Optional .semicolon next semi) :
    Stmt.Derivation names next (word :: (cs ++ start :: (bs ++ close :: semi))) (.whileDo cond body word.line)
  | forTo {names : List String} {next : Option Token} {word counter becomes upto start close : Token} {fs ls bs semi : List Token}
      {first limit : Expr} {body : List Stmt} (hw : word.isKeyword "for") (hn : counter.kind = .identifier)
      (ha : becomes.kind = .assign) (hf : first.Derivation .expression fs) (ht : upto.isKeyword "to")
      (hm : limit.Derivation .expression ls) (hd : start.isKeyword "do") (hb : Stmt.Derivations names bs body)
      (hl : close.isKeyword "endfor") (hs : Optional .semicolon next semi) :
    Stmt.Derivation names next (word :: counter :: becomes :: (fs ++ upto :: (ls ++ start :: (bs ++ close :: semi))))
      (.forTo counter.text first limit body word.line)
  | read {names : List String} {next : Option Token} {word l r semi : Token} {ts : List Token} {ids : List String}
      (hw : word.isKeyword "read") (hl : l.is .parenthesis "(") (hi : Listed Name ts ids)
      (hr : r.is .parenthesis ")") (hs : semi.kind = .semicolon) :
    Stmt.Derivation names next (word :: l :: (ts ++ [r, semi])) (.read ids word.line)
  | readOne {names : List String} {next : Option Token} {word name semi : Token} (hw : word.isKeyword "read")
      (hn : name.kind = .identifier) (hs : semi.kind = .semicolon) :
    Stmt.Derivation names next [word, name, semi] (.read [name.text] word.line)
  | write {names : List String} {next : Option Token} {word l r semi : Token} {ts : List Token} {values : List Expr}
      (hw : word.isKeyword "write") (hl : l.is .parenthesis "(")
      (hv : Listed (Expr.Derivation .expression) ts values) (hr : r.is .parenthesis ")")
      (hs : semi.kind = .semicolon) :
    Stmt.Derivation names next (word :: l :: (ts ++ [r, semi])) (.write values word.line)
  | writeBare {names : List String} {next : Option Token} {word semi : Token} {ts : List Token} {values : List Expr}
      (hw : word.isKeyword "write") (hv : Listed (Expr.Derivation .expression) ts values)
      (hs : semi.kind = .semicolon) : Stmt.Derivation names next (word :: (ts ++ [semi])) (.write values word.line)
  | group {names : List String} {next : Option Token} {word close : Token} {bs semi : List Token} {body : List Stmt}
      (hw : word.isKeyword "begin") (hb : Stmt.Derivations names bs body) (hl : close.isKeyword "end")
      (hs : Optional .semicolon next semi) :
    Stmt.Derivation names next (word :: (bs ++ close :: semi)) (.group body word.line)
  | procedure {names : List String} {next : Option Token} {word name semi : Token} {bs last : List Token} {body : Block}
      (hw : word.isKeyword "procedure") (hn : name.kind = .identifier) (hs : semi.kind = .semicolon)
      (hb : Block.Derivation (name.text :: names) (last.head?.or next) bs body) (hl : Optional .semicolon next last) :
    Stmt.Derivation names next (word :: name :: semi :: (bs ++ last)) (.procedure name.text body word.line)

inductive Stmt.Derivations : List String → List Token → List Stmt → Prop
  | nil {names : List String} : Stmt.Derivations names [] []
  | cons {names : List String} {ts us : List Token} {s : Stmt} {ss : List Stmt} (h : Stmt.Derivation names us.head? ts s)
      (hr : Stmt.Derivations (s.registered names) us ss) : Stmt.Derivations names (ts ++ us) (s :: ss)

inductive ElseIf.Derivation : List String → List Token → ElseIf → Prop
  | mk {names : List String} {word next thn : Token} {cs bs : List Token} {cond : Expr} {body : List Stmt}
      (hw : word.isKeyword "else") (hi : next.isKeyword "if") (hc : cond.Derivation .expression cs)
      (ht : thn.isKeyword "then") (hb : Stmt.Derivations names bs body) :
    ElseIf.Derivation names (word :: next :: (cs ++ thn :: bs)) ⟨cond, body, word.line⟩

inductive ElseIf.Derivations : List String → List Token → List ElseIf → Prop
  | nil {names : List String} : ElseIf.Derivations names [] []
  | cons {names : List String} {ts us : List Token} {e : ElseIf} {es : List ElseIf}
      (h : ElseIf.Derivation names ts e) (hr : ElseIf.Derivations (Stmt.registeredAll names e.body) us es) :
    ElseIf.Derivations names (ts ++ us) (e :: es)

/-- The branch behind a bare `else`, if there is one. -/
inductive Stmt.Last : List String → List Token → Option (List Stmt) → Prop
  | absent {names : List String} : Stmt.Last names [] none
  | present {names : List String} {word : Token} {ts : List Token} {ss : List Stmt}
      (hw : word.isKeyword "else") (hn : ∀ t ∈ ts.head?, t.isKeyword "if" = false)
      (h : Stmt.Derivations names ts ss) : Stmt.Last names (word :: ts) (some ss)

inductive Block.Derivation : List String → Option Token → List Token → Block → Prop
  | decls {names : List String} {next : Option Token} {t : Token} {ts : List Token} {ds : List Decl}
      (hd : Decl.Derivations (t :: ts) ds) (hn : ∀ t ∈ next, ¬ BeginsPart t) :
    Block.Derivation names next (t :: ts) ⟨ds, none, t.line⟩
  | stmt {names : List String} {next : Option Token} {t : Token} {ts us : List Token} {ds : List Decl} {s : Stmt}
      (hd : Decl.Derivations ts ds) (hs : Stmt.Derivation names next us s) (ht : (ts ++ us).head? = some t) :
    Block.Derivation names next (ts ++ us) ⟨ds, some s, t.line⟩

end

inductive Block.Derivations : List String → List Token → List Block → Prop
  | last {names : List String} {ts : List Token} {b : Block} (h : b.Derivation names none ts) :
    Derivations names ts [b]
  | cons {names : List String} {ts us : List Token} {b : Block} {bs : List Block}
      (h : b.Derivation names us.head? ts) (hr : Derivations (b.registered names) us bs) :
    Derivations names (ts ++ us) (b :: bs)

/-- Blocks, and perhaps a period. -/
inductive Program.Derivation : List Token → Program → Prop
  | mk {t : Token} {ts dot : List Token} {bs : List Block} (h : Block.Derivations [] (t :: ts) bs)
      (hd : Optional .period none dot) : Derivation (t :: ts ++ dot) ⟨bs, t.line⟩

end PLZero
