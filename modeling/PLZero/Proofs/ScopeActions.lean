import PLZero.Instr.Scopes
import Mathlib.Data.List.Infix

/-! Scopes under actions. However names are declared and procedures entered and left, the paths of the open scopes grow
by one name from each scope to the next one inside it. Between entering a procedure and leaving it again, actions that
leave what they enter change nothing outside it: all that is new behind the procedure is the procedure. -/

namespace PLZero

namespace Scopes

inductive Action
  | declare (name : String)
  | enter (name : String)
  | leave
  deriving DecidableEq, Repr

def act (s : Scopes) : Action → Scopes
  | .declare name => s.declare name
  | .enter name => s.enter name
  | .leave => s.leave

def actAll (s : Scopes) (actions : List Action) : Scopes := actions.foldl act s

namespace Action

/-- How many procedures are open behind actions if `n` are open before them; nothing if one is left that was not
entered. -/
def openAfter : Nat → List Action → Option Nat
  | n, [] => some n
  | n, declare _ :: rest => openAfter n rest
  | n, enter _ :: rest => openAfter (n + 1) rest
  | n + 1, leave :: rest => openAfter n rest
  | 0, leave :: _ => none

/-- Every procedure that is entered is left, and no other. -/
def Balanced (actions : List Action) : Prop := openAfter 0 actions = some 0

instance (actions : List Action) : Decidable (Balanced actions) := decEq (openAfter 0 actions) (some 0)

end Action

/-- The path of a scope is that of the scope around it and one name more; the outermost path is empty. -/
structure Stacked (s : Scopes) : Prop where
  chain : s.stack.IsChain fun inner around => ∃ name, inner.path = around.path ++ [name]
  bottom : s.stack.getLast?.map (·.path) = some []

namespace Stacked

variable {s : Scopes}

theorem initial : Stacked .initial := ⟨.singleton _, rfl⟩

/-- What the innermost scope lists does not matter. -/
theorem replace {scope : Scope} (h : s.Stacked) (hpath : scope.path = s.inner.path) : Stacked ⟨scope, s.outer⟩ := by
  obtain ⟨inner, outer⟩ := s
  obtain ⟨hchain, hbottom⟩ := h
  cases outer with
  | nil => exact ⟨.singleton _, by simpa [stack, hpath] using hbottom⟩
  | cons around outer =>
    simp only [stack, List.isChain_cons_cons] at hchain
    refine ⟨?_, hbottom⟩
    simpa only [stack, List.isChain_cons_cons, hpath] using hchain

theorem act (h : s.Stacked) (a : Action) : (s.act a).Stacked := by
  cases a with
  | declare name => exact h.replace rfl
  | enter name =>
    have hinner : Stacked ⟨{ s.inner with procedures := s.inner.procedures.insert name }, s.outer⟩ :=
      h.replace rfl
    exact ⟨.cons_cons ⟨name, rfl⟩ hinner.chain, hinner.bottom⟩
  | leave =>
    obtain ⟨inner, outer⟩ := s
    cases outer with
    | nil => exact h
    | cons around outer => exact ⟨(List.isChain_cons_cons.mp h.chain).2, h.bottom⟩

theorem actAll (h : s.Stacked) (actions : List Action) : (s.actAll actions).Stacked := by
  induction actions generalizing s with
  | nil => exact h
  | cons a actions ih => exact ih (h.act a)

end Stacked

theorem actAll_append (s : Scopes) (actions actions' : List Action) :
    s.actAll (actions ++ actions') = (s.actAll actions).actAll actions' :=
  List.foldl_append

/-- The scopes around the `n` innermost procedures stay as they are, as long as no more than these are left. -/
theorem drop_outer_actAll {actions : List Action} {n m : Nat} {s : Scopes}
    (h : Action.openAfter n actions = some m) (hn : n ≤ s.outer.length) :
    (s.actAll actions).outer.drop m = s.outer.drop n := by
  induction actions generalizing n s with
  | nil =>
    cases h
    rfl
  | cons a actions ih =>
    change ((s.act a).actAll actions).outer.drop m = s.outer.drop n
    cases a with
    | declare name => exact ih (s := s.declare name) h hn
    | enter name => exact ih (s := s.enter name) h (Nat.succ_le_succ hn)
    | leave =>
      obtain ⟨inner, outer⟩ := s
      cases n with
      | zero => cases h
      | succ n =>
        cases outer with
        | nil => cases hn
        | cons around outer => exact ih (s := ⟨around, outer⟩) h (Nat.le_of_succ_le_succ hn)

def addProcedure (s : Scopes) (name : String) : Scopes :=
  { s with inner := { s.inner with procedures := s.inner.procedures.insert name } }

/-- Behind a procedure, whatever its body declares, the scopes are as before it and list the procedure. -/
theorem actAll_procedure {body : List Action} (h : Action.Balanced body) (s : Scopes) (name : String) :
    s.actAll (.enter name :: body ++ [.leave]) = s.addProcedure name := by
  have houter : ((s.enter name).actAll body).outer = (s.enter name).outer :=
    drop_outer_actAll (n := 0) (m := 0) h (Nat.zero_le _)
  rw [List.cons_append]
  change (s.enter name).actAll (body ++ [.leave]) = s.addProcedure name
  rw [actAll_append]
  change ((s.enter name).actAll body).leave = s.addProcedure name
  rw [leave, houter]
  rfl

section

variable {s : Scopes} {name : String}

theorem resolve_addProcedure (x : String) : (s.addProcedure name).resolve x = s.resolve x := by
  by_cases hx : x ∈ s.inner.bindings <;> simp [resolve, stack, addProcedure, hx]

theorem resolveProcedure_addProcedure (q : String) :
    (s.addProcedure name).resolveProcedure q = if q = name then some (s.path ++ [name]) else s.resolveProcedure q := by
  by_cases hq : q = name
  · subst hq
    simp [resolveProcedure, stack, addProcedure, path]
  · by_cases hmem : q ∈ s.inner.procedures <;> simp [resolveProcedure, stack, addProcedure, hq, hmem]

end

theorem leave_of_not_inProcedure {s : Scopes} (h : s.inProcedure = false) : s.leave = s := by
  obtain ⟨inner, outer⟩ := s
  cases outer with
  | nil => rfl
  | cons around outer => cases h

/-- All that actions can do: there is always a scope, and paths grow by one name from scope to scope; outside procedures
there is nothing to leave; and a procedure adds itself to the scope around it and nothing else, so that every other name
means what it meant before. -/
theorem actions_frame :
    (∀ actions, (initial.actAll actions).stack ≠ [] ∧ (initial.actAll actions).Stacked) ∧
    (∀ actions, (initial.actAll actions).inProcedure = false →
      initial.actAll (actions ++ [.leave]) = initial.actAll actions) ∧
    ∀ (s : Scopes) p body, Action.Balanced body →
      s.actAll (.enter p :: body ++ [.leave]) =
        { s with inner := { s.inner with procedures := s.inner.procedures.insert p } } ∧
      (∀ x, (s.actAll (.enter p :: body ++ [.leave])).resolve x = s.resolve x) ∧
      ∀ q, (s.actAll (.enter p :: body ++ [.leave])).resolveProcedure q =
        if q = p then some (s.path ++ [p]) else s.resolveProcedure q := by
  refine ⟨fun actions => ⟨List.cons_ne_nil _ _, Stacked.initial.actAll actions⟩, fun actions h => ?_,
    fun s p body h => ?_⟩
  · rw [actAll_append]
    exact leave_of_not_inProcedure h
  · rw [actAll_procedure h]
    exact ⟨rfl, resolve_addProcedure, resolveProcedure_addProcedure⟩

/-- A procedure that declares the names of the scope around it again, one of them as a procedure in itself. -/
theorem actions_frame_nested :
    Action.Balanced [.declare "x", .enter "p", .declare "y", .leave, .enter "q", .leave] ∧
      (initial.actAll [.declare "x", .enter "p", .declare "x", .enter "p", .declare "y", .leave, .enter "q", .leave,
        .leave]).resolve "x" = some [] := by
  have hbody : Action.Balanced [.declare "x", .enter "p", .declare "y", .leave, .enter "q", .leave] := by decide
  exact ⟨hbody, (actions_frame.2.2 (initial.declare "x") "p" _ hbody).2.1 "x"⟩

end Scopes

end PLZero
