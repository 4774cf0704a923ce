import PLZero.Program.ReadStmt
import PLZero.Token.Scan

/-! Programs from token lists and from source text. -/

namespace PLZero.Program

/-- Any token list is taken; a list without end token ends at the line of its last token. -/
def ofTokens (tokens : List Token) : Except ParseError Program :=
  (Reader.program (tokens.length + 1) ⟨tokens, (tokens.getLast?.map (·.line)).getD 1, []⟩).map (·.1)

def ofSource (source : String) : Except ParseError Program :=
  ofTokens (Scan.ofSource source).tokens

end PLZero.Program
