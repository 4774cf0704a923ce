import PLZero.Proofs.Grammar

/-! Programs written out as tokens, all of them on one line. Every call has its keyword, what is read or
written stands in parentheses, every declaration is a section of its own, and a semicolon closes every
statement. Operands that have operators of their own stand in parentheses, all of them or where it matters. -/

namespace PLZero

open Grammar

inductive Side
  | left | right
  deriving DecidableEq, Repr

def Level.rank : Level → Nat
  | .relational => 0
  | .additive => 1
  | .multiplicative => 2

/-- Without parentheses the operand would be taken apart: its operator binds looser, or as loosely and
does not group with the outer one. Sums and products group to the left, comparisons not at all. -/
def BinOp.needsParens (outer : BinOp) (side : Side) (inner : BinOp) : Bool :=
  inner.level.rank < outer.level.rank ||
    inner.level = outer.level && (side = .right || outer.level = .relational)

/-- Which operands with an operator stand in parentheses. -/
inductive Parens
  | all | needed
  deriving DecidableEq, Repr

def Parens.wraps (style : Parens) (outer : BinOp) (side : Side) : Expr → Bool
  | .binary inner _ _ _ => style = .all || outer.needsParens side inner
  | .literal .. | .ident .. => false

section

variable (style : Parens) (n : Nat)

def wrapped (wrap : Bool) (ts : List Token) : List Token :=
  if wrap then ⟨.parenthesis, "(", n⟩ :: (ts ++ [⟨.parenthesis, ")", n⟩]) else ts

def separated : List (List Token) → List Token
  | [] => []
  | [ts] => ts
  | ts :: us :: rest => ts ++ ⟨.comma, ",", n⟩ :: separated (us :: rest)

def Expr.print : Expr → List Token
  | .binary op l r _ =>
    wrapped n (style.wraps op .left l) l.print ++
      ⟨.operator, op.symbol, n⟩ :: wrapped n (style.wraps op .right r) r.print
  | .literal v _ => [⟨.number, Text.ofWord v, n⟩]
  | .ident name _ => [⟨.identifier, name, n⟩]

def Initial.print : Initial → Token
  | .number v => ⟨.number, Text.ofWord v, n⟩
  | .constant name => ⟨.identifier, name, n⟩

def Decl.print : Decl → List Token
  | .var name none _ => [⟨.keyword, "var", n⟩, ⟨.identifier, name, n⟩, ⟨.semicolon, ";", n⟩]
  | .var name (some i) _ =>
    [⟨.keyword, "var", n⟩, ⟨.identifier, name, n⟩, ⟨.operator, "=", n⟩, i.print n, ⟨.semicolon, ";", n⟩]
  | .const name none _ => [⟨.keyword, "const", n⟩, ⟨.identifier, name, n⟩, ⟨.semicolon, ";", n⟩]
  | .const name (some i) _ =>
    [⟨.keyword, "const", n⟩, ⟨.identifier, name, n⟩, ⟨.operator, "=", n⟩, i.print n, ⟨.semicolon, ";", n⟩]

mutual

def Stmt.print : Stmt → List Token
  | .assign name value _ =>
    ⟨.identifier, name, n⟩ :: ⟨.assign, ":=", n⟩ :: (value.print style n ++ [⟨.semicolon, ";", n⟩])
  | .ifElse cond body elseIfs otherwise _ =>
    ⟨.keyword, "if", n⟩ :: (cond.print style n ++ ⟨.keyword, "then", n⟩ ::
      (Stmt.printAll body ++ (ElseIf.printAll elseIfs ++
        (Stmt.printLast otherwise ++ [⟨.keyword, "endif", n⟩, ⟨.semicolon, ";", n⟩]))))
  | .whileDo cond body _ =>
    ⟨.keyword, "while", n⟩ :: (cond.print style n ++ ⟨.keyword, "do", n⟩ ::
      (Stmt.printAll body ++ [⟨.keyword, "endwhile", n⟩, ⟨.semicolon, ";", n⟩]))
  | .forTo counter start bound body _ =>
    ⟨.keyword, "for", n⟩ :: ⟨.identifier, counter, n⟩ :: ⟨.assign, ":=", n⟩ ::
      (start.print style n ++ ⟨.keyword, "to", n⟩ :: (bound.print style n ++ ⟨.keyword, "do", n⟩ ::
        (Stmt.printAll body ++ [⟨.keyword, "endfor", n⟩, ⟨.semicolon, ";", n⟩])))
  | .read names _ =>
    ⟨.keyword, "read", n⟩ :: ⟨.parenthesis, "(", n⟩ ::
      (separated n (names.map fun name => [⟨.identifier, name, n⟩]) ++
        [⟨.parenthesis, ")", n⟩, ⟨.semicolon, ";", n⟩])
  | .write values _ =>
    ⟨.keyword, "write", n⟩ :: ⟨.parenthesis, "(", n⟩ ::
      (separated n (values.map (Expr.print style n)) ++ [⟨.parenthesis, ")", n⟩, ⟨.semicolon, ";", n⟩])
  | .call name _ => [⟨.keyword, "call", n⟩, ⟨.identifier, name, n⟩, ⟨.semicolon, ";", n⟩]
  | .group body _ =>
    ⟨.keyword, "begin", n⟩ :: (Stmt.printAll body ++ [⟨.keyword, "end", n⟩, ⟨.semicolon, ";", n⟩])
  | .procedure name body _ =>
    ⟨.keyword, "procedure", n⟩ :: ⟨.identifier, name, n⟩ :: ⟨.semicolon, ";", n⟩ ::
      (Block.print body ++ [⟨.semicolon, ";", n⟩])

def Stmt.printAll : List Stmt → List Token
  | [] => []
  | s :: ss => s.print ++ Stmt.printAll ss

def Stmt.printLast : Option (List Stmt) → List Token
  | some other => ⟨.keyword, "else", n⟩ :: Stmt.printAll other
  | none => []

def ElseIf.printAll : List ElseIf → List Token
  | [] => []
  | ⟨cond, body, _⟩ :: others =>
    ⟨.keyword, "else", n⟩ :: ⟨.keyword, "if", n⟩ ::
      (cond.print style n ++ ⟨.keyword, "then", n⟩ :: Stmt.printAll body) ++ ElseIf.printAll others

def Block.print : Block → List Token
  | ⟨decls, stmt, _⟩ => decls.flatMap (Decl.print n) ++
    match stmt with
    | some s => s.print
    | none => []

end

def Program.print (p : Program) : List Token := p.blocks.flatMap (Block.print style n) ++ [⟨.eof, "", n⟩]

end

section

variable (n : Nat)

def Expr.onLine : Expr → Expr
  | .binary op l r _ => .binary op l.onLine r.onLine n
  | .literal v _ => .literal v n
  | .ident name _ => .ident name n

def Decl.onLine : Decl → Decl
  | .var name init _ => .var name init n
  | .const name init _ => .const name init n

mutual

/-- The same tree with every node on line `n`. -/
def Stmt.onLine : Stmt → Stmt
  | .assign name value _ => .assign name (value.onLine n) n
  | .ifElse cond body elseIfs otherwise _ =>
    .ifElse (cond.onLine n) (Stmt.onLineAll body) (ElseIf.onLineAll elseIfs) (Stmt.onLineLast otherwise) n
  | .whileDo cond body _ => .whileDo (cond.onLine n) (Stmt.onLineAll body) n
  | .forTo counter start bound body _ =>
    .forTo counter (start.onLine n) (bound.onLine n) (Stmt.onLineAll body) n
  | .read names _ => .read names n
  | .write values _ => .write (values.map (Expr.onLine n)) n
  | .call name _ => .call name n
  | .group body _ => .group (Stmt.onLineAll body) n
  | .procedure name body _ => .procedure name (Block.onLine body) n

def Stmt.onLineAll : List Stmt → List Stmt
  | [] => []
  | s :: ss => s.onLine :: Stmt.onLineAll ss

def Stmt.onLineLast : Option (List Stmt) → Option (List Stmt)
  | some other => some (Stmt.onLineAll other)
  | none => none

def ElseIf.onLineAll : List ElseIf → List ElseIf
  | [] => []
  | ⟨cond, body, _⟩ :: others => ⟨cond.onLine n, Stmt.onLineAll body, n⟩ :: ElseIf.onLineAll others

def Block.onLine : Block → Block
  | ⟨decls, stmt, _⟩ => ⟨decls.map (Decl.onLine n), match stmt with
    | some s => some s.onLine
    | none => none, n⟩

end

def Program.onLine (p : Program) : Program := ⟨p.blocks.map (Block.onLine n), n⟩

end

namespace Text

theorem readDigits_toDigits (k : Nat) : readDigits (Nat.toDigits 10 k) = some k := by
  have hall : (Nat.toDigits 10 k).all Char.isDigit = true :=
    List.all_eq_true.mpr fun c hc => Nat.isDigit_of_mem_toDigits (by decide) (by decide) hc
  rw [readDigits, if_pos ⟨Nat.toDigits_ne_nil, hall⟩]
  exact congrArg some Nat.ofDigitChars_ten_toDigits

theorem readInt_toDigits (k : Nat) : readInt (Nat.toDigits 10 k) = some (k : Int) := by
  have hdigit : ∀ c ∈ Nat.toDigits 10 k, c.isDigit = true := fun c hc =>
    Nat.isDigit_of_mem_toDigits (by decide) (by decide) hc
  have hread := readDigits_toDigits k
  -- a digit is no sign
  unfold readInt
  split
  · next heq => exact absurd (hdigit '-' (by simp [heq])) (by decide)
  · next heq => exact absurd (hdigit '+' (by simp [heq])) (by decide)
  · rw [hread]
    rfl

theorem readInt_repr (i : Int) : readInt i.repr.toList = some i := by
  rw [Int.repr_eq_if]
  split
  · next h =>
    rw [Nat.toList_repr, readInt_toDigits, Int.toNat_of_nonneg h]
  · next h =>
    have htext : ("-" ++ (-i).toNat.repr).toList = '-' :: Nat.toDigits 10 (-i).toNat := by
      rw [String.toList_append, Nat.toList_repr]
      rfl
    rw [htext, readInt, readDigits_toDigits]
    change some (-((-i).toNat : Int)) = some i
    rw [Int.toNat_of_nonneg (by omega), Int.neg_neg]

/-- A word is read back from its decimal form. -/
theorem readWord_ofWord (v : Int32) : readWord (ofWord v).toList = some v := by
  have hmin : -2147483648 ≤ v.toInt := v.minValue_le_toInt
  have hmax : v.toInt ≤ Int32.maxValue.toInt := v.toInt_le
  rw [readWord, ofWord, readInt_repr]
  simp [Option.filter, hmin, hmax]

end Text

namespace Grammar

def Tier.rank : Tier → Nat
  | .expression => 0
  | .sum => 1
  | .product => 2
  | .factor => 3

theorem Tier.rank_le_factor (tier : Tier) : tier.rank ≤ Tier.factor.rank := by cases tier <;> decide

def Tier.ofLevel : Level → Tier
  | .relational => .expression
  | .additive => .sum
  | .multiplicative => .product

/-- The tier that an operator asks of its operands. -/
def Tier.operand : Level → Side → Tier
  | .relational, _ => .sum
  | .additive, .left => .sum
  | .additive, .right => .product
  | .multiplicative, .left => .product
  | .multiplicative, .right => .factor

end Grammar

def Expr.tier : Expr → Tier
  | .binary op .. => .ofLevel op.level
  | .literal .. | .ident .. => .factor

theorem BinOp.rank_of_not_needsParens {outer inner : BinOp} {side : Side}
    (h : outer.needsParens side inner = false) :
    (Tier.operand outer.level side).rank ≤ (Tier.ofLevel inner.level).rank := by
  unfold needsParens at h
  cases ho : outer.level <;> cases hi : inner.level <;> cases side <;>
    simp_all [Level.rank, Tier.operand, Tier.ofLevel, Tier.rank]

namespace Expr.Derivation

variable {tier tier' : Tier} {ts : List Token} {e : Expr}

theorem loosen (h : e.Derivation tier ts) (hr : tier'.rank ≤ tier.rank) : e.Derivation tier' ts := by
  have hproduct (h : e.Derivation .factor ts) : e.Derivation .product ts := .factor h
  have hsum (h : e.Derivation .product ts) : e.Derivation .sum ts := .product h
  have hexpr (h : e.Derivation .sum ts) : e.Derivation .expression ts := .sum h
  cases tier <;> cases tier' <;> simp_all [Tier.rank]

theorem join {t : Token} {op : BinOp} {ls rs : List Token} {l r : Expr}
    (hl : l.Derivation (.operand op.level .left) ls) (ht : t.Writes op)
    (hr : r.Derivation (.operand op.level .right) rs) :
    (Expr.binary op l r t.line).Derivation (.ofLevel op.level) (ls ++ t :: rs) := by
  cases hop : op.level with
  | relational => rw [hop] at hl hr; exact .compare hl ht hop hr
  | additive => rw [hop] at hl hr; exact .add hl ht hop hr
  | multiplicative => rw [hop] at hl hr; exact .multiply hl ht hop hr

end Expr.Derivation

section

variable (style : Parens) (n : Nat)

theorem Expr.operand_derivation {e : Expr} (h : (e.onLine n).Derivation e.tier (e.print style n)) (op : BinOp)
    (side : Side) : (e.onLine n).Derivation (.operand op.level side)
      (wrapped n (style.wraps op side e) (e.print style n)) := by
  unfold wrapped
  split
  · have hparens := Expr.Derivation.parens (l := ⟨.parenthesis, "(", n⟩) (r := ⟨.parenthesis, ")", n⟩) rfl
      (h.loosen (Nat.zero_le _)) rfl
    exact hparens.loosen (Tier.rank_le_factor _)
  · next hw =>
    refine h.loosen ?_
    cases e with
    | binary inner l r line =>
      refine BinOp.rank_of_not_needsParens ?_
      simp only [Parens.wraps, Bool.or_eq_true, not_or, Bool.not_eq_true] at hw
      exact hw.2
    | literal | ident => exact Tier.rank_le_factor _

/-- What is printed derives the expression, in either style. -/
theorem Expr.print_derivation (e : Expr) : (e.onLine n).Derivation e.tier (e.print style n) := by
  induction e with
  | binary op l r line ihl ihr =>
    exact .join (t := ⟨.operator, op.symbol, n⟩) (operand_derivation style n ihl op .left) ⟨rfl, rfl⟩
      (operand_derivation style n ihr op .right)
  | literal v line => exact .number rfl (Text.readWord_ofWord v)
  | ident name line => exact .name rfl

theorem listed_separated {α β : Type} {phrase : List Token → β → Prop} {f : α → List Token} {g : α → β}
    (h : ∀ a, phrase (f a) (g a)) {as : List α} (hne : as ≠ []) :
    Listed phrase (separated n (as.map f)) (as.map g) := by
  induction as with
  | nil => exact absurd rfl hne
  | cons a as ih =>
    cases as with
    | nil => exact .one (h a)
    | cons b as => exact .cons (h a) rfl (ih (by simp))

end

end PLZero
