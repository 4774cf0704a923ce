import Mathlib.Algebra.Order.Field.Rat
import PLZero.Script

/-! Scripts, read back. A text is split into tokens, each as long as it can be; expressions are read by the
precedence of their operators, and evaluated with exact numbers and truth values. -/

namespace PLZero.Js

inductive Token
  | word (text : String)
  | symbol (text : String)
  /-- A character that cannot stand where it does. -/
  | stray (c : Char)
  deriving DecidableEq, Repr

def symbols : List (List Char) :=
  ["(", ")", "\x7b", "\x7d", ",", ";", "?", ":", "=", "==", "===", "!", "!=", "!==", "<", "<=", "<<", ">", ">=", ">>",
    "|", "||", "|=", "+", "++", "+=", "-", "--", "-=", "*", "**", "*=", "/", "//", "/="].map String.toList

/-- The characters of names, of numbers, and of the name of a function in a library. -/
def isWordChar (c : Char) : Bool := c.isAlphanum || c = '_' || c = '$' || c = '.'

/-- What was begun: nothing, or a word or symbol with these characters. -/
inductive Begun
  | nothing
  | word (text : List Char)
  | symbol (text : List Char)

/-- The tokens that a character ends, and what is begun behind it, if nothing was begun before it. -/
def start (c : Char) : List Token × Begun :=
  if isWordChar c then ([], .word [c])
  else if [c] ∈ symbols then ([], .symbol [c])
  else if c = ' ' then ([], .nothing)
  else ([.stray c], .nothing)

def next : Begun → Char → List Token × Begun
  | .nothing, c => start c
  | .word text, c =>
    if isWordChar c then ([], .word (text ++ [c])) else (.word (.ofList text) :: (start c).1, (start c).2)
  | .symbol text, c =>
    if text ++ [c] ∈ symbols then ([], .symbol (text ++ [c]))
    else (.symbol (.ofList text) :: (start c).1, (start c).2)

def scan : Begun → List Char → List Token
  | .nothing, [] => []
  | .word text, [] => [.word (.ofList text)]
  | .symbol text, [] => [.symbol (.ofList text)]
  | b, c :: cs => (next b c).1 ++ scan (next b c).2 cs

def tokens (text : String) : List Token := scan .nothing text.toList

inductive Operator
  | or | same | differ | lt | le | gt | ge | add | sub | mul | div
  deriving DecidableEq, Repr

namespace Operator

def all : List (String × Operator) :=
  [("|", or), ("===", same), ("!==", differ), ("<", lt), ("<=", le), (">", gt), (">=", ge), ("+", add), ("-", sub),
    ("*", mul), ("/", div)]

def ofSymbol? (s : String) : Option Operator := all.lookup s

/-- How tightly an operator binds, loosest first. The conditional operator is on level zero. -/
def level : Operator → Nat
  | or => 1
  | same | differ => 2
  | lt | le | gt | ge => 3
  | add | sub => 4
  | mul | div => 5

end Operator

inductive Term
  | number (n : Nat)
  | name (name : String)
  | negate (x : Term)
  | binary (op : Operator) (left right : Term)
  | choose (cond yes no : Term)
  /-- The product that `Math.imul` gives. -/
  | imul (left right : Term)
  deriving DecidableEq, Repr

/-- A part of an expression that waits for an operand, or for the end of one. -/
inductive Pending
  | negate
  | binary (op : Operator) (left : Term)
  | paren
  | imul
  | factor
  | product (left : Term)
  | question (cond : Term)
  | otherwise (cond yes : Term)

/-- Expressions that have begun, the innermost first, and the operand read last, if none is expected. -/
structure Reading where
  pending : List Pending
  operand : Option Term

/-- Ends what binds at least as tightly as an operator of this level that comes behind. -/
def reduce (level : Nat) : List Pending → Term → List Pending × Term
  | .negate :: rest, x => reduce level rest (.negate x)
  | .binary op left :: rest, x =>
    if level ≤ op.level then reduce level rest (.binary op left x) else (.binary op left :: rest, x)
  | .otherwise cond yes :: rest, x =>
    if level = 0 then reduce level rest (.choose cond yes x) else (.otherwise cond yes :: rest, x)
  | pending, x => (pending, x)

/-- A decimal number, written without needless zeros. -/
def numeral? (w : String) : Option Nat := (Text.readDigits w.toList).filter fun n => Text.ofNat n = w

def isName (w : String) : Bool :=
  w.toList.head?.any (fun c => !c.isDigit) && w.toList.all (· != '.') && !(w ∈ Script.reserved)

def operand? (w : String) : Option Term :=
  match numeral? w with
  | some n => some (.number n)
  | none => if isName w then some (.name w) else none

def expecting (pending : List Pending) : Token → Option Reading
  | .word w =>
    if w = "Math.imul" then some ⟨.imul :: pending, none⟩ else (operand? w).map fun x => ⟨pending, some x⟩
  | .symbol s =>
    if s = "-" then some ⟨.negate :: pending, none⟩
    else if s = "(" then
      match pending with
      | .imul :: rest => some ⟨.factor :: rest, none⟩
      | _ => some ⟨.paren :: pending, none⟩
    else none
  | .stray _ => none

def behind (pending : List Pending) (x : Term) : Token → Option Reading
  | .symbol s =>
    match Operator.ofSymbol? s with
    | some op => some ⟨.binary op (reduce op.level pending x).2 :: (reduce op.level pending x).1, none⟩
    | none =>
      if s = "?" then some ⟨.question (reduce 1 pending x).2 :: (reduce 1 pending x).1, none⟩
      else
        match reduce 0 pending x with
        | (.question cond :: rest, y) => if s = ":" then some ⟨.otherwise cond y :: rest, none⟩ else none
        | (.paren :: rest, y) => if s = ")" then some ⟨rest, some y⟩ else none
        | (.factor :: rest, y) => if s = "," then some ⟨.product y :: rest, none⟩ else none
        | (.product left :: rest, y) => if s = ")" then some ⟨rest, some (.imul left y)⟩ else none
        | _ => none
  | _ => none

def Reading.step (r : Reading) (t : Token) : Option Reading :=
  match r.operand with
  | none => expecting r.pending t
  | some x => behind r.pending x t

def Reading.finish (r : Reading) : Option Term :=
  match r.operand with
  | some x => if (reduce 0 r.pending x).1.isEmpty then some (reduce 0 r.pending x).2 else none
  | none => none

namespace Term

def ofTokens? (ts : List Token) : Option Term := do (← ts.foldlM Reading.step ⟨[], none⟩).finish

def ofText? (text : String) : Option Term := ofTokens? (tokens text)

example : ofText? "a === b + -c * 3 / d < e | 0 ? f : g ? h : i" =
    some (.choose (.binary .or (.binary .same (.name "a") (.binary .lt (.binary .add (.name "b") (.binary .div
      (.binary .mul (.negate (.name "c")) (.number 3)) (.name "d"))) (.name "e"))) (.number 0)) (.name "f")
      (.choose (.name "g") (.name "h") (.name "i"))) := by
  decide +kernel

end Term

/-- A number, exactly, or a truth value. -/
inductive Value
  | number (q : ℚ)
  | bool (b : Bool)
  deriving DecidableEq

namespace Value

def toNumber : Value → ℚ
  | .number q => q
  | .bool b => if b then 1 else 0

def isTrue : Value → Bool
  | .number q => q ≠ 0
  | .bool b => b

/-- The number without its fraction, modulo `2 ^ 32`. -/
def toWord (v : Value) : Int32 := .ofInt (v.toNumber.num.tdiv v.toNumber.den)

def ofWord (w : Int32) : Value := .number w.toInt

end Value

/-- An operator on two values; a division by zero has no result. -/
def Operator.apply (a b : Value) : Operator → Option Value
  | .or => some (.ofWord (a.toWord ||| b.toWord))
  | .same => some (.bool (a = b))
  | .differ => some (.bool (a ≠ b))
  | .lt => some (.bool (a.toNumber < b.toNumber))
  | .le => some (.bool (a.toNumber ≤ b.toNumber))
  | .gt => some (.bool (a.toNumber > b.toNumber))
  | .ge => some (.bool (a.toNumber ≥ b.toNumber))
  | .add => some (.number (a.toNumber + b.toNumber))
  | .sub => some (.number (a.toNumber - b.toNumber))
  | .mul => some (.number (a.toNumber * b.toNumber))
  | .div => if b.toNumber = 0 then none else some (.number (a.toNumber / b.toNumber))

/-- The value of a term, given the words that names stand for. -/
def Term.eval (env : String → Int32) : Term → Option Value
  | .number n => some (.number n)
  | .name n => some (.ofWord (env n))
  | .negate x => do return .number (-(← x.eval env).toNumber)
  | .binary op left right => do op.apply (← left.eval env) (← right.eval env)
  | .choose cond yes no => do if (← cond.eval env).isTrue then yes.eval env else no.eval env
  | .imul left right => do return .ofWord ((← left.eval env).toWord * (← right.eval env).toWord)

/-- A statement, or what opens a block. -/
inductive Head
  | assign (name : String) (value : Term)
  | call (function : String) (argument : Term)
  | ifOpen (cond : Term)
  | elseIf (cond : Term)
  | whileOpen (cond : Term)
  | forOpen (init : String × Term) (test : Term) (update : String × Term)
  deriving DecidableEq, Repr

def assignment? : List Token → Option (String × Term)
  | .word w :: .symbol s :: ts => if isName w && s = "=" then (Term.ofTokens? ts).map (w, ·) else none
  | _ => none

/-- The tokens in front of these last ones. -/
def before? (last ts : List Token) : Option (List Token) :=
  if last.isSuffixOf ts then some (ts.take (ts.length - last.length)) else none

/-- The condition of a block, up to the brace that opens it. -/
def condition? (ts : List Token) : Option Term := do
  Term.ofTokens? (← before? [.symbol ")", .symbol "\x7b"] ts)

def loop? (ts : List Token) : Option Head := do
  match (← before? [.symbol ")", .symbol "\x7b"] ts).splitOn (.symbol ";") with
  | [init, test, update] => return .forOpen (← assignment? init) (← Term.ofTokens? test) (← assignment? update)
  | _ => none

namespace Head

def ofTokens? (ts : List Token) : Option Head :=
  match ts with
  | .word w :: .symbol s :: rest =>
    if s = "=" then do
      let (name, value) ← assignment? (← before? [.symbol ";"] ts)
      return .assign name value
    else if s = "(" then
      if w = "if" then (condition? rest).map .ifOpen
      else if w = "while" then (condition? rest).map .whileOpen
      else if w = "for" then loop? rest
      else if isName w then do return .call w (← Term.ofTokens? (← before? [.symbol ")", .symbol ";"] rest))
      else none
    else none
  | .symbol close :: .word w :: .word w' :: .symbol s :: rest =>
    if close = "\x7d" ∧ w = "else" ∧ w' = "if" ∧ s = "(" then (condition? rest).map .elseIf else none
  | _ => none

def ofText? (text : String) : Option Head := ofTokens? (tokens text)

end Head

end PLZero.Js
