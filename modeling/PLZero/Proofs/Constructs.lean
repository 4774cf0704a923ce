import PLZero.Instr.Markers
import PLZero.Proofs.Scoped
import Mathlib.Data.List.Forall2

/-! The control structure of code. Markers come in constructs: one that opens, any that divide what is inside, and
one that closes. A reader of code that checks only of what kind the innermost open marker is, takes the code as these
constructs, whatever it keeps for them. -/

namespace PLZero

inductive ControlKind
  | procedure
  | conditional
  | whileLoop
  | forLoop
  deriving DecidableEq, Repr

/-- What an instruction is to the markers. -/
inductive Role
  | plain
  | opens (kind : ControlKind)
  | divides (kind : ControlKind)
  | closes (kind : ControlKind)
  deriving DecidableEq, Repr

def Op.role : Op → Role
  | .procedureStart _ => .opens .procedure
  | .procedureEnd _ => .closes .procedure
  | .ifMark => .opens .conditional
  | .elseIf | .elseMark => .divides .conditional
  | .endIf => .closes .conditional
  | .whileMark => .opens .whileLoop
  | .doMark => .divides .whileLoop
  | .endWhile => .closes .whileLoop
  | .forInit _ => .opens .forLoop
  | .forTo _ => .divides .forLoop
  | .endFor _ => .closes .forLoop
  | .declare _ | .const .. | .load _ | .store _ | .push _ | .oper _ | .call _ | .read _ | .write => .plain

structure Opened where
  start : Instr
  /-- The markers that divide it, in order. -/
  middles : List Instr
  deriving DecidableEq, Repr

namespace Opened

def IsOf (o : Opened) (k : ControlKind) : Prop := o.start.op.role = .opens k

instance (o : Opened) (k : ControlKind) : Decidable (o.IsOf k) := inferInstanceAs (Decidable (_ = _))

def ofKind? (k : ControlKind) (o : Opened) : Option Opened := if o.IsOf k then some o else none

theorem ofKind?_eq {o : Opened} {k : ControlKind} (h : o.IsOf k) : ofKind? k o = some o := if_pos h

end Opened

def OpenMarker.divided (o : OpenMarker Opened) (i : Instr) : OpenMarker Opened :=
  { o with frame := ⟨o.frame.start, o.frame.middles ++ [i]⟩ }

structure Construct where
  start : Instr
  middles : List Instr
  stop : Instr
  deriving DecidableEq, Repr

/-- The open constructs, and the closed ones in the order of their ends. -/
structure MarkerRun where
  markers : Markers Opened
  closed : List Construct
  deriving DecidableEq, Repr

namespace MarkerRun

def initial : MarkerRun := ⟨[], []⟩

def instr (r : MarkerRun) (i : Instr) : Except CodeError MarkerRun :=
  match i.op.role with
  | .plain => .ok r
  | .opens _ => .ok { r with markers := r.markers.push ⟨i, []⟩ i }
  | .divides k => do
    let o ← r.markers.top i (Opened.ofKind? k)
    return { r with markers := r.markers.replace { o with middles := o.middles ++ [i] } }
  | .closes k => do
    let (o, markers) ← r.markers.pop i (Opened.ofKind? k)
    return ⟨markers, r.closed ++ [⟨o.start, o.middles, i⟩]⟩

variable {r : MarkerRun} {i : Instr} {k : ControlKind} {o : OpenMarker Opened} {rest : Markers Opened}

theorem instr_plain (h : i.op.role = .plain) : r.instr i = .ok r := by simp only [instr, h]

theorem instr_opens (h : i.op.role = .opens k) :
    r.instr i = .ok { r with markers := r.markers.push ⟨i, []⟩ i } := by simp only [instr, h]

theorem instr_divides (h : i.op.role = .divides k) (hm : r.markers = o :: rest) (ho : o.frame.IsOf k) :
    r.instr i = .ok { r with markers := o.divided i :: rest } := by
  simp only [instr, h, hm, Markers.top, Opened.ofKind?_eq ho]
  rfl

theorem instr_closes (h : i.op.role = .closes k) (hm : r.markers = o :: rest) (ho : o.frame.IsOf k) :
    r.instr i = .ok ⟨rest, r.closed ++ [⟨o.frame.start, o.frame.middles, i⟩]⟩ := by
  simp only [instr, h, hm, Markers.pop, Opened.ofKind?_eq ho]
  rfl

/-- What is closed stays closed. -/
theorem closed_of_instr {r' : MarkerRun} (h : r.instr i = .ok r') : r.closed ⊆ r'.closed := by
  unfold instr at h
  split at h
  · cases h
    exact List.Subset.refl _
  · cases h
    exact List.Subset.refl _
  · obtain ⟨o, -, h⟩ := ok_of_bind h
    cases h
    exact List.Subset.refl _
  · obtain ⟨o, -, h⟩ := ok_of_bind h
    cases h
    exact List.subset_append_left ..

theorem closed_of_run {code : List Instr} {r' : MarkerRun} (h : code.foldlM instr r = .ok r') :
    r.closed ⊆ r'.closed := by
  induction code generalizing r with
  | nil =>
    cases h
    exact List.Subset.refl _
  | cons i code ih =>
    obtain ⟨r1, h1, h⟩ := ok_of_bind h
    exact List.Subset.trans (closed_of_instr h1) (ih h)

/-- What reads instruction by instruction along with the constructs reads whole code along with them. -/
theorem simulates {σ : Type} {step : σ → Instr → Except CodeError σ} {R : σ → MarkerRun → Prop}
    (hstep : ∀ {s i s' r}, step s i = .ok s' → R s r → ∃ r', r.instr i = .ok r' ∧ R s' r') {code : List Instr}
    {s s' : σ} (h : code.foldlM step s = .ok s') (hR : R s r) :
    ∃ r', code.foldlM instr r = .ok r' ∧ R s' r' := by
  induction code generalizing s r with
  | nil =>
    cases h
    exact ⟨r, rfl, hR⟩
  | cons i code ih =>
    obtain ⟨s1, h1, h⟩ := ok_of_bind h
    obtain ⟨r1, hr1, hR1⟩ := hstep h1 hR
    obtain ⟨r', hr', hR'⟩ := ih h hR1
    refine ⟨r', ?_, hR'⟩
    rw [List.foldlM_cons, hr1]
    exact hr'

end MarkerRun

/-- The constructs of code, if its markers nest. -/
def constructs (code : List Instr) : Except CodeError (List Construct) := do
  let r ← code.foldlM MarkerRun.instr .initial
  r.markers.finish
  return r.closed

theorem constructs_eq {code : List Instr} {cs : List Construct}
    (h : code.foldlM MarkerRun.instr .initial = .ok ⟨[], cs⟩) : constructs code = .ok cs := by
  unfold constructs
  rw [h]
  rfl

theorem run_of_constructs {code : List Instr} {cs : List Construct} (h : constructs code = .ok cs) :
    ∃ r, code.foldlM MarkerRun.instr .initial = .ok r ∧ r.closed = cs := by
  obtain ⟨r, hr, h⟩ := ok_of_bind h
  obtain ⟨u, -, h⟩ := ok_of_bind h
  cases h
  exact ⟨r, hr, rfl⟩

namespace Markers

variable {φ β : Type} {m : Markers φ} {i : Instr} {select : φ → Option β}

theorem of_top {b : β} (h : m.top i select = .ok b) : ∃ o rest, m = o :: rest ∧ select o.frame = some b := by
  unfold top at h
  split at h
  · next o rest =>
    split at h
    · next hb =>
      cases h
      exact ⟨o, rest, rfl, hb⟩
    · cases h
  · cases h

theorem of_pop {r : β × Markers φ} (h : m.pop i select = .ok r) : ∃ o, m = o :: r.2 ∧ select o.frame = some r.1 := by
  unfold pop at h
  split at h
  · next o rest =>
    split at h
    · next hb =>
      cases h
      exact ⟨o, rfl, hb⟩
    · cases h
  · cases h

theorem of_finish {u : Unit} (h : m.finish = .ok u) : m = [] := by
  unfold finish at h
  split at h
  · cases h
  · rfl

/-- Every open marker is of the kind that the frame at its place is of. -/
abbrev Follow (kind : φ → ControlKind) (m : Markers φ) (opened : Markers Opened) : Prop :=
  List.Forall₂ (fun o o' => o'.frame.IsOf (kind o.frame)) m opened

end Markers

namespace Role

variable {φ : Type} {kind : φ → ControlKind} {m m' : Markers φ} {r : MarkerRun} {i : Instr}

/-- What an instruction of this role does to open markers whose frames are of these kinds. -/
def Changes (kind : φ → ControlKind) (role : Role) (m m' : Markers φ) : Prop :=
  match role with
  | .plain => m' = m
  | .opens k => ∃ o, kind o.frame = k ∧ m' = o :: m
  | .divides k => ∃ o o' rest, kind o.frame = k ∧ kind o'.frame = k ∧ m = o :: rest ∧ m' = o' :: rest
  | .closes k => ∃ o, kind o.frame = k ∧ m = o :: m'

/-- The constructs are read along with any such markers. -/
theorem Changes.follow (h : i.op.role.Changes kind m m') (hm : m.Follow kind r.markers) :
    ∃ r', r.instr i = .ok r' ∧ m'.Follow kind r'.markers := by
  cases hrole : i.op.role with
  | plain =>
    rw [hrole] at h
    obtain rfl := h
    exact ⟨r, MarkerRun.instr_plain hrole, hm⟩
  | opens k =>
    rw [hrole] at h
    obtain ⟨o, rfl, rfl⟩ := h
    exact ⟨_, MarkerRun.instr_opens hrole, .cons hrole hm⟩
  | divides k =>
    rw [hrole] at h
    obtain ⟨o, o', rest, rfl, hk, rfl, rfl⟩ := h
    obtain ⟨top, opened, ho, hrest, hr⟩ := List.forall₂_cons_left_iff.mp hm
    refine ⟨_, MarkerRun.instr_divides hrole hr ho, .cons ?_ hrest⟩
    rw [hk]
    exact ho
  | closes k =>
    rw [hrole] at h
    obtain ⟨o, rfl, rfl⟩ := h
    obtain ⟨top, opened, ho, hrest, hr⟩ := List.forall₂_cons_left_iff.mp hm
    exact ⟨_, MarkerRun.instr_closes hrole hr ho, hrest⟩

end Role

end PLZero
