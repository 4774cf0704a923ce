import PLZero.Json

/-! Tokens of the source language. -/

namespace PLZero

inductive TokenKind
  | keyword | identifier | number | operator | comma | semicolon | assign | parenthesis | period | eof
  deriving DecidableEq, Repr, Inhabited

def TokenKind.describe : TokenKind → String
  | .keyword => "keyword"
  | .identifier => "identifier"
  | .number => "number"
  | .operator => "operator"
  | .comma => "comma"
  | .semicolon => "semicolon"
  | .assign => "':='"
  | .parenthesis => "parenthesis"
  | .period => "'.'"
  | .eof => "end of input"

def TokenKind.tag : TokenKind → String
  | .keyword => "Keyword"
  | .identifier => "Identifier"
  | .number => "Number"
  | .operator => "Operator"
  | .comma => "Comma"
  | .semicolon => "Semicolon"
  | .assign => "Equals"
  | .parenthesis => "Parenthesis"
  | .period => "End"
  | .eof => "Eof"

def keywords : List String :=
  ["const", "var", "procedure", "call", "begin", "end", "if", "then", "else", "endif", "while", "do",
   "endwhile", "for", "to", "endfor", "read", "write"]

structure Token where
  kind : TokenKind
  text : String
  line : Nat
  deriving DecidableEq, Repr, Inhabited

namespace Token

def is (t : Token) (kind : TokenKind) (text : String) : Bool := t.kind == kind && t.text == text

def isKeyword (t : Token) (word : String) : Bool := t.is .keyword word

def json (t : Token) : Json :=
  .obj [("kind", .str t.kind.tag), ("text", .str t.text), ("line", .nat t.line)]

end Token

end PLZero
