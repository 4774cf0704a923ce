import PLZero.Program.Parse

/-! Reading with a position. A walk goes over a token list that stays whole; it has a position also when it stops,
remembers every position that it left and every call that it took, and says at which index the token stands that an
error names. Where a bound on repetition or nesting is used up there is no answer at all. -/

namespace PLZero

/-- The token at an index; behind the last one stand end tokens. -/
def Token.shown (tokens : List Token) (i : Nat) : Token :=
  tokens[i]?.getD ⟨.eof, "", (tokens.getLast?.map (·.line)).getD 1⟩

open Token (shown)

structure Cursor where
  position : Nat
  /-- The names that a statement may call without `call`. -/
  procedures : List String
  /-- The positions before this one, the latest first. -/
  visited : List Nat
  /-- The names called so far, each with the procedures at its call. -/
  calls : List (String × List String)

namespace Cursor

def start : Cursor := ⟨0, [], [], []⟩

def moveTo (c : Cursor) (p : Nat) : Cursor := { c with position := p, visited := c.position :: c.visited }

/-- Past the last token the position stays where it is. -/
def advance (tokens : List Token) (c : Cursor) : Cursor :=
  if c.position < tokens.length then c.moveTo (c.position + 1) else c

end Cursor

/-- An error, the index of the token that it names, and the index of the last token that was looked at. -/
structure Stop where
  error : ParseError
  index : Nat
  furthest : Nat

def Walk (α : Type) : Type := List Token → Cursor → Option (Except Stop α × Cursor)

namespace Walk

variable {α β : Type}

/-- Goes on where the first walk has succeeded. -/
def andThen (w : Walk α) (f : α → Walk β) : Walk β := fun tokens c =>
  match w tokens c with
  | some (.ok a, d) => f a tokens d
  | some (.error e, d) => some (.error e, d)
  | none => none

instance : Monad Walk where
  pure a := fun _ c => some (.ok a, c)
  bind := andThen

def spent : Walk α := fun _ _ => none

def current : Walk Token := fun tokens c => some (.ok (shown tokens c.position), c)

def position : Walk Nat := fun _ c => some (.ok c.position, c)

def procedures : Walk (List String) := fun _ c => some (.ok c.procedures, c)

def setProcedures (names : List String) : Walk Unit := fun _ c => some (.ok (), { c with procedures := names })

def recordCall (name : String) : Walk Unit :=
  fun _ c => some (.ok (), { c with calls := c.calls ++ [(name, c.procedures)] })

def advance : Walk Token := fun tokens c => some (.ok (shown tokens c.position), c.advance tokens)

def fail (e : ParseError) (i : Nat) : Walk α := fun _ c => some (.error ⟨e, i, i⟩, c)

def stop (what : Expected) : Walk α :=
  fun tokens c => fail (.unexpected what (shown tokens c.position)) c.position tokens c

def expect (kind : TokenKind) (what : Expected) : Walk Token := do
  if (← current).kind = kind then advance else stop what

def expectText (kind : TokenKind) (text : String) (what : Expected) : Walk Token := do
  if (← current).is kind text then advance else stop what

def keyword (word : String) : Walk Token := expectText .keyword word (.keyword word)

def identifier : Walk Token := expect .identifier .identifier

def semicolon : Walk Token := expect .semicolon (.mark ";")

def closeParen : Walk Token := expectText .parenthesis ")" (.mark ")")

def skip (kind : TokenKind) : Walk Unit := do
  if (← current).kind = kind then
    let _ ← advance
    return ()
  else return ()

/-- The value of a number, which stands at an index. -/
def numberAt (t : Token) (i : Nat) : Walk Int32 :=
  match Text.readWord t.text.toList with
  | some v => return v
  | none => fail (.numberOutOfRange t) i

def number : Walk Int32 := do
  let i ← position
  let t ← expect .number .number
  numberAt t i

/-- Items as long as `more` holds of the current token. -/
def many (more : Token → Bool) (item : Walk α) : Nat → Walk (List α)
  | 0 => spent
  | n + 1 => do
    if more (← current) then
      let x ← item
      let xs ← many more item n
      return x :: xs
    else return []

def items (bound : Nat) (item : Walk α) : Walk (List α) := do
  let x ← item
  let further : Walk α := do
    let _ ← advance
    item
  let xs ← many (·.kind == .comma) further bound
  return x :: xs

def chain (level : Level) (operand : Walk Expr) : Nat → Expr → Walk Expr
  | 0, _ => spent
  | n + 1, left => do
    let t ← current
    match Reader.operatorAt level t with
    | some op =>
      let _ ← advance
      let right ← operand
      chain level operand n (.binary op left right t.line)
    | none => return left

def chained (bound : Nat) (level : Level) (operand : Walk Expr) : Walk Expr := do
  let left ← operand
  chain level operand bound left

def factor (inner : Walk Expr) : Walk Expr := do
  let t ← current
  match t.kind with
  | .number => return .literal (← number) t.line
  | .identifier =>
    let _ ← advance
    return .ident t.text t.line
  | .parenthesis =>
    if t.text = "(" then
      let _ ← advance
      let e ← inner
      let _ ← closeParen
      return e
    else stop .operand
  | _ => stop .operand

def product (bound : Nat) (inner : Walk Expr) : Walk Expr := chained bound .multiplicative (factor inner)

def sum (bound : Nat) (inner : Walk Expr) : Walk Expr := chained bound .additive (product bound inner)

def comparison (bound : Nat) (inner : Walk Expr) : Walk Expr := do
  let left ← sum bound inner
  let t ← current
  match Reader.operatorAt .relational t with
  | some op =>
    let _ ← advance
    let right ← sum bound inner
    return .binary op left right t.line
  | none => return left

def exprWithin (bound : Nat) : Nat → Walk Expr
  | 0 => spent
  | n + 1 => comparison bound (exprWithin bound n)

def expr (bound : Nat) : Walk Expr := exprWithin bound bound

def initial : Walk Initial := do
  if (← current).kind = .identifier then return .constant (← advance).text
  else return .number (← number)

def constItem : Walk Decl := do
  let name ← identifier
  let _ ← expectText .operator "=" (.mark "=")
  return .const name.text (some (← initial)) name.line

def varItem : Walk Decl := do
  let name ← identifier
  if (← current).is .operator "=" then
    let _ ← advance
    return .var name.text (some (← initial)) name.line
  else return .var name.text none name.line

def declList (bound : Nat) : Walk (List Decl) := do
  let word ← advance
  let ds ← items bound (if word.isKeyword "const" then constItem else varItem)
  let _ ← semicolon
  return ds

def decls (bound : Nat) : Walk (List Decl) := do
  return (← many Reader.startsDecls (declList bound) bound).flatten

def stmts (bound : Nat) (stmt : Walk Stmt) : Walk (List Stmt) := many Reader.startsStatement stmt bound

def assignOrCall (bound : Nat) : Walk Stmt := do
  let name ← advance
  if (← current).kind = .assign then
    let _ ← advance
    let value ← expr bound
    let _ ← semicolon
    return .assign name.text value name.line
  else if name.text ∈ (← procedures) then
    let _ ← semicolon
    recordCall name.text
    return .call name.text name.line
  else stop (.mark ":=")

/-- The branches behind the first one: guarded ones, and at most one that is not. -/
def branches (bound : Nat) (stmt : Walk Stmt) : Nat → Walk (List ElseIf × Option (List Stmt))
  | 0 => spent
  | n + 1 => do
    if (← current).isKeyword "else" then
      let word ← advance
      if (← current).isKeyword "if" then
        let _ ← advance
        let cond ← expr bound
        let _ ← keyword "then"
        let body ← stmts bound stmt
        let others ← branches bound stmt n
        return (⟨cond, body, word.line⟩ :: others.1, others.2)
      else return ([], some (← stmts bound stmt))
    else return ([], none)

def ifStmt (bound : Nat) (stmt : Walk Stmt) : Walk Stmt := do
  let word ← advance
  let cond ← expr bound
  let _ ← keyword "then"
  let body ← stmts bound stmt
  let others ← branches bound stmt bound
  let _ ← keyword "endif"
  skip .semicolon
  return .ifElse cond body others.1 others.2 word.line

def whileStmt (bound : Nat) (stmt : Walk Stmt) : Walk Stmt := do
  let word ← advance
  let cond ← expr bound
  let _ ← keyword "do"
  let body ← stmts bound stmt
  let _ ← keyword "endwhile"
  skip .semicolon
  return .whileDo cond body word.line

def forStmt (bound : Nat) (stmt : Walk Stmt) : Walk Stmt := do
  let word ← advance
  let counter ← identifier
  let _ ← expect .assign (.mark ":=")
  let start ← expr bound
  let _ ← keyword "to"
  let limit ← expr bound
  let _ ← keyword "do"
  let body ← stmts bound stmt
  let _ ← keyword "endfor"
  skip .semicolon
  return .forTo counter.text start limit body word.line

def readStmt (bound : Nat) : Walk Stmt := do
  let word ← advance
  if (← current).is .parenthesis "(" then
    let _ ← advance
    let names ← items bound identifier
    let _ ← closeParen
    let _ ← semicolon
    return .read (names.map (·.text)) word.line
  else
    let name ← identifier
    let _ ← semicolon
    return .read [name.text] word.line

def parenthesized (bound : Nat) : Walk (List Expr) := do
  let _ ← expectText .parenthesis "(" (.mark "(")
  let values ← items bound (expr bound)
  let _ ← closeParen
  return values

def bareWrite (bound line : Nat) : Walk Stmt := do
  let values ← items bound (expr bound)
  let _ ← semicolon
  return .write values line

/-- What is read after all tokens up to an index have been looked at before. -/
def again (i : Nat) (w : Walk α) : Walk α := fun tokens c =>
  match w tokens c with
  | some (.error e, d) => some (.error { e with furthest := max e.furthest i }, d)
  | some (.ok a, d) => some (.ok a, d)
  | none => none

/-- A parenthesized list and the semicolon behind it. Where one of them is missing, the position goes back to the
parenthesis, and of the error only its index is left. -/
def listOrBare (bound line : Nat) : Walk Stmt := fun tokens c =>
  match parenthesized bound tokens c with
  | some (.ok values, d) =>
    if (shown tokens d.position).kind = .semicolon then some (.ok (.write values line), d.advance tokens)
    else again d.position (bareWrite bound line) tokens (d.moveTo c.position)
  | some (.error e, d) => again e.index (bareWrite bound line) tokens (d.moveTo c.position)
  | none => none

def writeStmt (bound : Nat) : Walk Stmt := do
  let word ← advance
  if (← current).is .parenthesis "(" then listOrBare bound word.line
  else bareWrite bound word.line

def callStmt : Walk Stmt := do
  let word ← advance
  let name ← identifier
  let _ ← semicolon
  recordCall name.text
  return .call name.text word.line

def groupStmt (bound : Nat) (stmt : Walk Stmt) : Walk Stmt := do
  let word ← advance
  let body ← stmts bound stmt
  let _ ← keyword "end"
  skip .semicolon
  return .group body word.line

def block (bound : Nat) (stmt : Walk Stmt) : Walk Block := do
  let first ← current
  let ds ← decls bound
  if Reader.startsStatement (← current) then return ⟨ds, some (← stmt), first.line⟩
  else if ds.isEmpty then stop .block
  else return ⟨ds, none, first.line⟩

def procedureStmt (bound : Nat) (stmt : Walk Stmt) : Walk Stmt := do
  let word ← advance
  let name ← identifier
  setProcedures (name.text :: (← procedures))
  let _ ← semicolon
  let outer ← procedures
  let body ← block bound stmt
  setProcedures outer
  skip .semicolon
  return .procedure name.text body word.line

def stmtWith (bound : Nat) (inner : Walk Stmt) : Walk Stmt := do
  let t ← current
  if t.kind = .identifier then assignOrCall bound
  else match t.text with
    | "if" => ifStmt bound inner
    | "while" => whileStmt bound inner
    | "for" => forStmt bound inner
    | "read" => readStmt bound
    | "write" => writeStmt bound
    | "call" => callStmt
    | "begin" => groupStmt bound inner
    | "procedure" => procedureStmt bound inner
    | _ => stop .statement

def stmtWithin (bound : Nat) : Nat → Walk Stmt
  | 0 => spent
  | n + 1 => stmtWith bound (stmtWithin bound n)

def stmt (bound : Nat) : Walk Stmt := stmtWithin bound bound

def program (bound : Nat) : Walk Program := do
  let first ← current
  let blocks ← many (!Reader.endsBlocks ·) (block bound (stmt bound)) bound
  if blocks.isEmpty then stop .block
  else
    skip .period
    let _ ← expect .eof .endOfInput
    return ⟨blocks, first.line⟩

end Walk

end PLZero
