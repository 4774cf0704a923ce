import PLZero.Program.ReadExpr

/-! Reading declarations, statements, blocks and programs. -/

namespace PLZero.Reader

def initial : Reader Initial := do
  if (← current).kind = .identifier then return .constant (← advance).text
  else return .number (← number)

def constItem : Reader Decl := do
  let name ← identifier
  discard (expectText .operator "=" (.mark "="))
  return .const name.text (some (← initial)) name.line

def varItem : Reader Decl := do
  let name ← identifier
  if (← current).is .operator "=" then
    discard advance
    return .var name.text (some (← initial)) name.line
  else return .var name.text none name.line

def startsDecls (t : Token) : Bool := t.isKeyword "const" || t.isKeyword "var"

def declList (bound : Nat) : Reader (List Decl) := do
  let item := if (← advance).isKeyword "const" then constItem else varItem
  let ds ← items bound item
  discard semicolon
  return ds

def decls (bound : Nat) : Reader (List Decl) := do
  return (← many bound (startsDecls ·.current) (declList bound)).flatten

def statementWords : List String :=
  ["if", "while", "for", "read", "write", "call", "begin", "procedure"]

def startsStatement (t : Token) : Bool :=
  t.kind == .identifier || t.kind == .keyword && t.text ∈ statementWords

def stmts (bound : Nat) (stmt : Reader Stmt) : Reader (List Stmt) :=
  many bound (startsStatement ·.current) stmt

/-- A name followed by `:=` is assigned; the name of a procedure in sight is called. -/
def assignOrCall (bound : Nat) : Reader Stmt := do
  let s ← get
  let name ← advance
  if s.next.kind = .assign then
    discard advance
    let value ← expr bound
    discard semicolon
    return .assign name.text value name.line
  else if name.text ∈ s.procedures then
    discard semicolon
    return .call name.text name.line
  else stop (.mark ":=")

def elseIf (bound : Nat) (stmt : Reader Stmt) : Reader ElseIf := do
  let line := (← advance).line
  discard advance
  let cond ← expr bound
  discard (keyword "then")
  return ⟨cond, ← stmts bound stmt, line⟩

def otherwise (bound : Nat) (stmt : Reader Stmt) : Reader (Option (List Stmt)) := do
  if (← current).isKeyword "else" then
    discard advance
    return some (← stmts bound stmt)
  else return none

def ifStmt (bound : Nat) (stmt : Reader Stmt) : Reader Stmt := do
  let line := (← advance).line
  let cond ← expr bound
  discard (keyword "then")
  let body ← stmts bound stmt
  let elseIfs ← many bound (fun s => s.current.isKeyword "else" && s.next.isKeyword "if")
    (elseIf bound stmt)
  let rest ← otherwise bound stmt
  discard (keyword "endif")
  skipSemicolon
  return .ifElse cond body elseIfs rest line

def whileStmt (bound : Nat) (stmt : Reader Stmt) : Reader Stmt := do
  let line := (← advance).line
  let cond ← expr bound
  discard (keyword "do")
  let body ← stmts bound stmt
  discard (keyword "endwhile")
  skipSemicolon
  return .whileDo cond body line

def forStmt (bound : Nat) (stmt : Reader Stmt) : Reader Stmt := do
  let line := (← advance).line
  let counter ← identifier
  discard (expect .assign (.mark ":="))
  let start ← expr bound
  discard (keyword "to")
  let limit ← expr bound
  discard (keyword "do")
  let body ← stmts bound stmt
  discard (keyword "endfor")
  skipSemicolon
  return .forTo counter.text start limit body line

def readStmt (bound : Nat) : Reader Stmt := do
  let line := (← advance).line
  if (← current).is .parenthesis "(" then
    discard advance
    let names ← items bound identifier
    discard closeParen
    discard semicolon
    return .read (names.map (·.text)) line
  else
    let name ← identifier
    discard semicolon
    return .read [name.text] line

def parenthesized (bound : Nat) : Reader (List Expr) := do
  discard (expectText .parenthesis "(" (.mark "("))
  let values ← items bound (expr bound)
  discard closeParen
  return values

/-- A parenthesized list, if nothing but the closing semicolon follows it; else bare expressions. -/
def writeStmt (bound : Nat) : Reader Stmt := do
  let line := (← advance).line
  let bare : Reader Stmt := do
    let values ← items bound (expr bound)
    discard semicolon
    return .write values line
  fun s =>
    if s.current.is .parenthesis "(" then
      match parenthesized bound s with
      | .ok (values, s') =>
        if s'.current.kind = .semicolon then .ok (.write values line, s'.advance) else bare s
      | .error _ => bare s
    else bare s

def callStmt : Reader Stmt := do
  let line := (← advance).line
  let name ← identifier
  discard semicolon
  return .call name.text line

def groupStmt (bound : Nat) (stmt : Reader Stmt) : Reader Stmt := do
  let line := (← advance).line
  let body ← stmts bound stmt
  discard (keyword "end")
  skipSemicolon
  return .group body line

def block (bound : Nat) (stmt : Reader Stmt) : Reader Block := do
  let line := (← current).line
  let ds ← decls bound
  if startsStatement (← current) then return ⟨ds, some (← stmt), line⟩
  else if ds.isEmpty then stop .block
  else return ⟨ds, none, line⟩

/-- The name can be called from its own body on; names declared in the body end with it. -/
def procedureStmt (bound : Nat) (stmt : Reader Stmt) : Reader Stmt := do
  let line := (← advance).line
  let name ← identifier
  modify fun s => { s with procedures := name.text :: s.procedures }
  discard semicolon
  let outer := (← get).procedures
  let body ← block bound stmt
  modify fun s => { s with procedures := outer }
  skipSemicolon
  return .procedure name.text body line

def stmtWith (bound : Nat) (inner : Reader Stmt) : Reader Stmt := do
  let t ← current
  if t.kind = .identifier then assignOrCall bound
  else match t.text with
    | "if" => ifStmt bound inner
    | "while" => whileStmt bound inner
    | "for" => forStmt bound inner
    | "read" => readStmt bound
    | "write" => writeStmt bound
    | "call" => callStmt
    | "begin" => groupStmt bound inner
    | "procedure" => procedureStmt bound inner
    | _ => stop .statement

def stmtWithin (bound : Nat) : Nat → Reader Stmt
  | 0 => stop .statement
  | n + 1 => stmtWith bound (stmtWithin bound n)

/-- Each enclosing statement has taken a token, so the bound on the tokens left bounds the nesting
too. -/
def stmt (bound : Nat) : Reader Stmt := stmtWithin bound bound

def endsBlocks (t : Token) : Bool := t.kind == .eof || t.kind == .period

def program (bound : Nat) : Reader Program := do
  let line := (← current).line
  let blocks ← many bound (!endsBlocks ·.current) (block bound (stmt bound))
  if blocks.isEmpty then stop .block
  else
    if (← current).kind = .period then discard advance
    discard (expect .eof .endOfInput)
    return ⟨blocks, line⟩

end PLZero.Reader
