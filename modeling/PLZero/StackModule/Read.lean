import PLZero.Sexp

/-! The fields of a module that is given as text. -/

namespace PLZero

/-- The items at the start of a list that can be read, and all behind them. -/
def leading {α β : Type} (read? : α → Option β) : List α → List β × List α
  | [] => ([], [])
  | a :: as =>
    match read? a with
    | some b =>
      let (bs, rest) := leading read? as
      (b :: bs, rest)
    | none => ([], a :: as)

inductive Field
  /-- A function of the host, with its numbers of parameters and results. -/
  | imported (source name id : String) (params results : Nat)
  | global (id : String) (exports : List String) (mutable : Bool) (value : Sexp)
  | function (id : String) (exports locals : List String) (body : List Sexp)

namespace Field

def exported? (x : Sexp) : Option String :=
  match x.items? "export" with
  | some [.quoted name] => some name
  | _ => none

def typed? (head : String) (x : Sexp) : Option Unit :=
  match x.items? head with
  | some [.word w] => if w = "i32" then some () else none
  | _ => none

def declaredLocal? (x : Sexp) : Option String :=
  match x.items? "local" with
  | some [.word name, .word w] => if w = "i32" then some name else none
  | _ => none

def globalType? : Sexp → Option Bool
  | .word w => if w = "i32" then some false else none
  | x => (typed? "mut" x).map fun _ => true

def imported? : List Sexp → Option Field
  | [.quoted source, .quoted name, x] =>
    match x.items? "func" with
    | some (.word id :: types) =>
      let (params, types) := leading (typed? "param") types
      let (results, types) := leading (typed? "result") types
      if types.isEmpty then some (.imported source name id params.length results.length) else none
    | _ => none
  | _ => none

def global? : List Sexp → Option Field
  | .word id :: items =>
    match leading exported? items with
    | (exports, [type, value]) =>
      (globalType? type).map fun mutable => .global id exports mutable value
    | _ => none
  | _ => none

def function? : List Sexp → Option Field
  | .word id :: items =>
    let (exports, items) := leading exported? items
    let (locals, body) := leading declaredLocal? items
    some (.function id exports locals body)
  | _ => none

def ofSexp? (x : Sexp) : Option Field :=
  match x with
  | .list (.word kind :: items) =>
    if kind = "import" then imported? items
    else if kind = "global" then global? items
    else if kind = "func" then function? items
    else none
  | _ => none

def allOfText? (text : String) : Option (List Field) := do
  let items ← (← Sexp.ofText? text).items? "module"
  items.mapM ofSexp?

end Field

end PLZero
