/-! Texts of words, quoted texts and lists in parentheses. -/

namespace PLZero

inductive Sexp
  | word (text : String)
  | quoted (text : String)
  | list (items : List Sexp)

namespace Sexp

def items? (head : String) : Sexp → Option (List Sexp)
  | .list (.word w :: items) => if w = head then some items else none
  | _ => none

inductive Lexeme
  | opening
  | closing
  | word (text : String)
  | quoted (text : String)
  /-- A character that cannot stand where it does. -/
  | stray (c : Char)
  deriving DecidableEq, Repr

def isWordChar (c : Char) : Bool := c.isAlphanum || c ∈ "!#$%&'*+-./:<=>?@\\^_`|~".toList

def isPlainChar (c : Char) : Bool := 32 ≤ c.toNat && c.toNat < 127 && c != '"' && c != '\\'

/-- What was begun: nothing, or a word or quoted text with these characters. -/
inductive Begun
  | nothing
  | word (text : List Char)
  | quoted (text : List Char)

def start (c : Char) : List Lexeme × Begun :=
  if isWordChar c then ([], .word [c])
  else if c = '(' then ([.opening], .nothing)
  else if c = ')' then ([.closing], .nothing)
  else if c = '"' then ([], .quoted [])
  else if c = ' ' || c = '\n' then ([], .nothing)
  else ([.stray c], .nothing)

def step : Begun → Char → List Lexeme × Begun
  | .nothing, c => start c
  | .word text, c =>
    if isWordChar c then ([], .word (text ++ [c]))
    else (.word (.ofList text) :: (start c).1, (start c).2)
  | .quoted text, c =>
    if c = '"' then ([.quoted (.ofList text)], .nothing)
    else if isPlainChar c then ([], .quoted (text ++ [c]))
    else ([.stray c], .nothing)

def Begun.last : Begun → List Lexeme
  | .nothing => []
  | .word text => [.word (.ofList text)]
  | .quoted _ => [.stray '"']

/-- The lexemes of a text behind those found already, the latest of them first. -/
def scan (found : List Lexeme) : Begun → List Char → List Lexeme
  | b, [] => (b.last ++ found).reverse
  | b, c :: cs => scan ((step b c).1.reverse ++ found) (step b c).2 cs

/-- The lists that are open, the innermost first, each with its items from the last one to the first. -/
def build : List (List Sexp) → List Lexeme → Option (List Sexp)
  | [items], [] => some items.reverse
  | stack, .opening :: ls => build ([] :: stack) ls
  | items :: outer :: stack, .closing :: ls => build ((.list items.reverse :: outer) :: stack) ls
  | items :: stack, .word text :: ls => build ((.word text :: items) :: stack) ls
  | items :: stack, .quoted text :: ls => build ((.quoted text :: items) :: stack) ls
  | _, _ => none

def ofText? (text : String) : Option Sexp :=
  match build [[]] (scan [] .nothing text.toList) with
  | some [x] => some x
  | _ => none

end Sexp

end PLZero
