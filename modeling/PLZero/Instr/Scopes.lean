import PLZero.Instr.CodeError

/-! Names in sight while code is read, rebuilt from its declarations and procedure markers. -/

namespace PLZero

structure Scope where
  /-- The procedures around the scope, outermost first. -/
  path : List String
  bindings : List String
  procedures : List String
  deriving DecidableEq, Repr, Inhabited

/-- The innermost scope, and those around it from the inside out. -/
structure Scopes where
  inner : Scope
  outer : List Scope
  deriving DecidableEq, Repr

/-- A path as one text, `p.q` for the procedure `q` in `p`. -/
def dotted (path : List String) : String := ".".intercalate path

def qualify (path : List String) (name : String) : String := dotted (path ++ [name])

theorem mem_dotted {path : List String} {c : Char} (h : c ∈ (dotted path).toList) :
    c = '.' ∨ ∃ name ∈ path, c ∈ name.toList := by
  induction path with
  | nil => simp [dotted] at h
  | cons name rest ih =>
    cases rest with
    | nil => exact .inr ⟨name, by simp, by simpa [dotted] using h⟩
    | cons name' rest =>
      have hcons : (dotted (name :: name' :: rest)).toList = name.toList ++ '.' :: (dotted (name' :: rest)).toList := by
        simp [dotted, String.toList_intercalate]
      rw [hcons, List.mem_append, List.mem_cons] at h
      rcases h with h | h | h
      · exact .inr ⟨name, by simp, h⟩
      · exact .inl h
      · rcases ih h with h | ⟨n, hn, hc⟩
        · exact .inl h
        · exact .inr ⟨n, List.mem_cons_of_mem _ hn, hc⟩

namespace Scopes

def initial : Scopes := ⟨⟨[], [], []⟩, []⟩

def stack (s : Scopes) : List Scope := s.inner :: s.outer

def path (s : Scopes) : List String := s.inner.path

def inProcedure (s : Scopes) : Bool := !s.outer.isEmpty

def declare (s : Scopes) (name : String) : Scopes :=
  { s with inner := { s.inner with bindings := s.inner.bindings.insert name } }

/-- Registers a procedure in the innermost scope and enters its body. -/
def enter (s : Scopes) (name : String) : Scopes :=
  ⟨⟨s.path ++ [name], [], []⟩,
    { s.inner with procedures := s.inner.procedures.insert name } :: s.outer⟩

/-- Leaves a procedure; the outermost scope stays. -/
def leave (s : Scopes) : Scopes :=
  match s.outer with
  | inner :: outer => ⟨inner, outer⟩
  | [] => s

/-- The path of the procedure that owns the binding a name means. -/
def resolve (s : Scopes) (name : String) : Option (List String) :=
  (s.stack.find? (name ∈ ·.bindings)).map (·.path)

def resolveProcedure (s : Scopes) (name : String) : Option (List String) :=
  (s.stack.find? (name ∈ ·.procedures)).map (·.path ++ [name])

def binding (s : Scopes) (name : String) (i : Instr) : Except CodeError String :=
  match s.resolve name with
  | some path => .ok (qualify path name)
  | none => .error (.unknownAt name i)

def procedure (s : Scopes) (name : String) (i : Instr) : Except CodeError String :=
  match s.resolveProcedure name with
  | some path => .ok (dotted path)
  | none => .error (.unknownAt name i)

end Scopes

end PLZero
