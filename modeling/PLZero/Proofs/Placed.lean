import PLZero.Proofs.Declared
import PLZero.Replay.Lower
import Mathlib.Order.Nat

/-! Where the parts of a program stand in jump code. What stands between two positions is decided by the
steps between them and by the entries of the procedures, so it stays when code is added elsewhere. -/

namespace PLZero

variable {e : Expr} {line : Nat}

namespace Replay

/-- The owner of the variables of a scope, where procedures are numbered as in `ps`. -/
def owner (ps : List (List String)) (path : List String) : Option Nat :=
  if path = [] then none else some (ps.idxOf path)

def varRef (ps : List (List String)) (layers : List Layer) (name : String) : VarRef :=
  ⟨(lookup layers name).bind fun f => owner ps f.home.path, name⟩

def procedureNumber (ps : List (List String)) (layers : List Layer) (name : String) : Nat :=
  ((lookup layers name).map fun f => ps.idxOf (f.home.path ++ [name])).getD 0

def JumpCode.StepAt (J : JumpCode) (i : Nat) (step : Step) (line : Option Nat) : Prop :=
  J.code[i]? = some ⟨step, line⟩

/-- The procedure of a path has a number and starts at `i`. -/
def JumpCode.EntryAt (J : JumpCode) (ps : List (List String)) (path : List String) (i : Nat) : Prop :=
  path ∈ ps ∧ ∃ text, J.procedures[ps.idxOf path]? = some ⟨text, i⟩

end Replay

open Replay

section

variable (J : JumpCode) (ps : List (List String))

def Decl.At (layers : List Layer) (own : Option Nat) : Decl → Nat → Nat → Prop
  | .var name none line, i, k => J.StepAt i (.declare ⟨own, name⟩) (some line) ∧ k = i + 1
  | .var name (some init) line, i, k =>
    J.StepAt i (.declare ⟨own, name⟩) (some line) ∧
      J.StepAt (i + 1) (.push (init.valueIn layers)) (some line) ∧
      J.StepAt (i + 2) (.store ⟨own, name⟩) (some line) ∧ k = i + 3
  | .const name init line, i, k =>
    J.StepAt i (.const ⟨own, name⟩ (init.elim 0 (·.valueIn layers))) (some line) ∧ k = i + 1

def Decl.AtAll (outer : List Layer) : Layer → List Decl → Nat → Nat → Prop
  | _, [], i, k => i = k
  | l, d :: ds, i, k => ∃ j, d.At J (l :: outer) (owner ps l.path) i j ∧
    AtAll outer (l.add (d.entry (l :: outer))) ds j k

def Expr.At (layers : List Layer) : Expr → Nat → Nat → Prop
  | .binary op left right line, i, k => ∃ j m, left.At layers i j ∧ right.At layers j m ∧
    J.StepAt m (.oper op) (some line) ∧ k = m + 1
  | .literal value line, i, k => J.StepAt i (.push value) (some line) ∧ k = i + 1
  | .ident name line, i, k => J.StepAt i (.load (varRef ps layers name)) (some line) ∧ k = i + 1

def Expr.WritesAt (layers : List Layer) (line : Nat) : List Expr → Nat → Nat → Prop
  | [], i, k => i = k
  | e :: es, i, k => ∃ j, e.At J ps layers i j ∧ J.StepAt j .write (some line) ∧
    WritesAt layers line es (j + 1) k

def ReadsAt (layers : List Layer) (line : Nat) : List String → Nat → Nat → Prop
  | [], i, k => i = k
  | name :: names, i, k => J.StepAt i (.read (varRef ps layers name)) (some line) ∧
    ReadsAt layers line names (i + 1) k

mutual

/-- The statement stands from `i` up to `k`. -/
def Stmt.At (outer : List Layer) (l : Layer) : Stmt → Nat → Nat → Prop
  | .assign name value line, i, k => ∃ j, value.At J ps (l :: outer) i j ∧
    J.StepAt j (.store (varRef ps (l :: outer) name)) (some line) ∧ k = j + 1
  | .ifElse cond body elseIfs otherwise line, i, k => ∃ a b next, cond.At J ps (l :: outer) i a ∧
    J.StepAt a (.jumpIfFalse next) (some line) ∧ Stmt.AtAll outer l body (a + 1) b ∧
    ElseIf.AtAll outer (Stmt.afterAll l body) k elseIfs
      (fun l b next => Stmt.LastAt outer l k otherwise b next) b next
  | .whileDo cond body line, i, k => ∃ a b, cond.At J ps (l :: outer) i a ∧
    J.StepAt a (.jumpIfFalse k) (some line) ∧ Stmt.AtAll outer l body (a + 1) b ∧
    J.StepAt b (.jump i) none ∧ k = b + 1
  | .forTo counter start bound body line, i, k => ∃ a b c, start.At J ps (l :: outer) i a ∧
    J.StepAt a (.store (varRef ps (l :: outer) counter)) (some line) ∧
    bound.At J ps (l :: outer) (a + 1) b ∧
    J.StepAt b (.forTest (varRef ps (l :: outer) counter) k) (some line) ∧
    Stmt.AtAll outer l body (b + 1) c ∧
    J.StepAt c (.forStep (varRef ps (l :: outer) counter) (a + 1)) none ∧ k = c + 1
  | .read names line, i, k => ReadsAt J ps (l :: outer) line names i k
  | .write values line, i, k => Expr.WritesAt J ps (l :: outer) line values i k
  | .call name line, i, k =>
    J.StepAt i (.call (procedureNumber ps (l :: outer) name)) (some line) ∧ k = i + 1
  | .group body _, i, k => Stmt.AtAll outer l body i k
  | .procedure name body _, i, k => ∃ b, J.StepAt i (.jump k) none ∧
    J.EntryAt ps (l.path ++ [name]) (i + 1) ∧
    body.At (l.add (.procedure name body) :: outer) (l.inside name) (i + 1) b ∧
    J.StepAt b .leave none ∧ k = b + 1

def Stmt.AtAll (outer : List Layer) (l : Layer) : List Stmt → Nat → Nat → Prop
  | [], i, k => i = k
  | s :: ss, i, k => ∃ j, s.At outer l i j ∧ Stmt.AtAll outer (s.after l) ss j k

def Stmt.LastAt (outer : List Layer) (l : Layer) (exit : Nat) : Option (List Stmt) → Nat → Nat → Prop
  | some other, b, next =>
    J.StepAt b (.jump exit) none ∧ next = b + 1 ∧ Stmt.AtAll outer l other (b + 1) exit
  | none, b, next => next = b ∧ exit = b

/-- Behind a branch that ends at `b` the remaining branches stand up to `exit`; the jump past the branch
goes to `next`. -/
def ElseIf.AtAll (outer : List Layer) (l : Layer) (exit : Nat) :
    List ElseIf → (Layer → Nat → Nat → Prop) → Nat → Nat → Prop
  | [], last, b, next => last l b next
  | ⟨cond, body, line⟩ :: others, last, b, next => J.StepAt b (.jump exit) none ∧ next = b + 1 ∧
    ∃ a c next', cond.At J ps (l :: outer) (b + 1) a ∧ J.StepAt a (.jumpIfFalse next') (some line) ∧
      Stmt.AtAll outer l body (a + 1) c ∧
      ElseIf.AtAll outer (Stmt.afterAll l body) exit others last c next'

def Block.At (outer : List Layer) (l : Layer) : Block → Nat → Nat → Prop
  | ⟨decls, stmt, _⟩, i, k => ∃ j, Decl.AtAll J ps outer l decls i j ∧
    match stmt with
    | some s => s.At outer (Decl.afterAll outer l decls) j k
    | none => j = k

end

def Block.AtAll (outer : List Layer) : Layer → List Block → Nat → Nat → Prop
  | _, [], i, k => i = k
  | l, b :: bs, i, k => ∃ j, b.At J ps outer l i j ∧ AtAll outer (b.after outer l) bs j k

end

namespace Replay

/-- The steps from `i` up to `k` and the procedures known so far are the same in `J'`. -/
structure Agrees (J J' : JumpCode) (i k : Nat) : Prop where
  code : ∀ x, i ≤ x → x < k → J'.code[x]? = J.code[x]?
  procedures : ∀ (n : Nat) p, J.procedures[n]? = some p → J'.procedures[n]? = some p

variable {J J' : JumpCode} {ps : List (List String)} {i j k : Nat}

theorem Agrees.sub {i' k' : Nat} (h : Agrees J J' i k) (hi : i ≤ i') (hk : k' ≤ k) : Agrees J J' i' k' :=
  ⟨fun x hx hx' => h.code x (hi.trans hx) (hx'.trans_le hk), h.procedures⟩

theorem Agrees.trans {J'' : JumpCode} (h : Agrees J J' i k) (h' : Agrees J' J'' i k) : Agrees J J'' i k :=
  ⟨fun x hx hx' => (h'.code x hx hx').trans (h.code x hx hx'),
    fun n p hp => h'.procedures n p (h.procedures n p hp)⟩

theorem Agrees.stepAt {step : Step} {line : Option Nat} (h : Agrees J J' i k) (hs : J.StepAt j step line)
    (hi : i ≤ j) (hk : j < k) : J'.StepAt j step line :=
  (h.code j hi hk).trans hs

theorem Agrees.entryAt {path : List String} {e : Nat} (h : Agrees J J' i k) (he : J.EntryAt ps path e) :
    J'.EntryAt ps path e :=
  ⟨he.1, he.2.imp fun _ => h.procedures _ _⟩

end Replay

variable {J J' : JumpCode} {ps : List (List String)} {layers outer : List Layer} {l : Layer} {i k : Nat}

theorem Decl.At.le {own : Option Nat} {d : Decl} (h : d.At J layers own i k) : i < k := by
  match d with
  | .var name none line => have := h.2; omega
  | .var name (some init) line => have := h.2.2.2; omega
  | .const name init line => have := h.2; omega

theorem Decl.At.mono {own : Option Nat} {d : Decl} (h : d.At J layers own i k) (ha : Agrees J J' i k) :
    d.At J' layers own i k := by
  have hlt := Decl.At.le h
  match d with
  | .var name none line => exact ⟨ha.stepAt h.1 (by omega) hlt, h.2⟩
  | .var name (some init) line =>
    obtain ⟨hd, hp, hs, rfl⟩ := h
    exact ⟨ha.stepAt hd (by omega) (by omega), ha.stepAt hp (by omega) (by omega),
      ha.stepAt hs (by omega) (by omega), rfl⟩
  | .const name init line => exact ⟨ha.stepAt h.1 (by omega) hlt, h.2⟩

theorem Decl.AtAll.le {ds : List Decl} (h : Decl.AtAll J ps outer l ds i k) : i ≤ k := by
  induction ds generalizing l i with
  | nil => exact Nat.le_of_eq h
  | cons d ds ih =>
    obtain ⟨j, hd, hds⟩ := h
    exact (Decl.At.le hd).le.trans (ih hds)

theorem Decl.AtAll.mono {ds : List Decl} (h : Decl.AtAll J ps outer l ds i k) (ha : Agrees J J' i k) :
    Decl.AtAll J' ps outer l ds i k := by
  induction ds generalizing l i with
  | nil => exact h
  | cons d ds ih =>
    obtain ⟨j, hd, hds⟩ := h
    exact ⟨j, hd.mono (ha.sub le_rfl hds.le), ih hds (ha.sub (Decl.At.le hd).le le_rfl)⟩

theorem Expr.At.lt (h : e.At J ps layers i k) : i < k := by
  induction e generalizing i k with
  | binary op left right line ihl ihr =>
    obtain ⟨j, m, hl, hr, -, rfl⟩ := h
    have := ihl hl
    have := ihr hr
    omega
  | literal value line => have := h.2; omega
  | ident name line => have := h.2; omega

/-- An expression has no jumps, so its code can be moved. -/
theorem Expr.At.shift (d : Nat) (h : e.At J ps layers i k)
    (ha : ∀ x, i ≤ x → x < k → J'.code[x + d]? = J.code[x]?) : e.At J' ps layers (i + d) (k + d) := by
  induction e generalizing i k with
  | binary op left right line ihl ihr =>
    obtain ⟨j, m, hl, hr, hop, rfl⟩ := h
    have hij := hl.lt
    have hjm := hr.lt
    exact ⟨j + d, m + d, ihl hl fun x hx hx' => ha x hx (by omega),
      ihr hr fun x hx hx' => ha x (by omega) (by omega),
      (ha m (by omega) (by omega)).trans hop, by omega⟩
  | literal value line => exact ⟨(ha i le_rfl (Expr.At.lt h)).trans h.1, by have := h.2; omega⟩
  | ident name line => exact ⟨(ha i le_rfl (Expr.At.lt h)).trans h.1, by have := h.2; omega⟩

theorem Expr.At.mono (h : e.At J ps layers i k) (ha : Agrees J J' i k) :
    e.At J' ps layers i k :=
  h.shift 0 ha.code

theorem Expr.WritesAt.le {es : List Expr} (h : Expr.WritesAt J ps layers line es i k) :
    i ≤ k := by
  induction es generalizing i with
  | nil => exact Nat.le_of_eq h
  | cons e es ih =>
    obtain ⟨j, he, -, hes⟩ := h
    have := he.lt
    have := ih hes
    omega

theorem Expr.WritesAt.mono {es : List Expr} (h : Expr.WritesAt J ps layers line es i k)
    (ha : Agrees J J' i k) : Expr.WritesAt J' ps layers line es i k := by
  induction es generalizing i with
  | nil => exact h
  | cons e es ih =>
    obtain ⟨j, he, hw, hes⟩ := h
    have hij := he.lt
    have hjk := hes.le
    exact ⟨j, he.mono (ha.sub le_rfl (by omega)), ha.stepAt hw (by omega) (by omega),
      ih hes (ha.sub (by omega) le_rfl)⟩

theorem ReadsAt.le {names : List String} (h : ReadsAt J ps layers line names i k) :
    i ≤ k := by
  induction names generalizing i with
  | nil => exact Nat.le_of_eq h
  | cons name names ih =>
    have := ih h.2
    omega

theorem ReadsAt.mono {names : List String} (h : ReadsAt J ps layers line names i k)
    (ha : Agrees J J' i k) : ReadsAt J' ps layers line names i k := by
  induction names generalizing i with
  | nil => exact h
  | cons name names ih =>
    have := h.2.le
    exact ⟨ha.stepAt h.1 le_rfl (by omega), ih h.2 (ha.sub (by omega) le_rfl)⟩

mutual

theorem Stmt.At.mono {J J' : JumpCode} {ps : List (List String)} {outer : List Layer} {l : Layer}
    {i k : Nat} {s : Stmt} (h : s.At J ps outer l i k) :
    i ≤ k ∧ (Agrees J J' i k → s.At J' ps outer l i k) := by
  match s with
  | .assign name value line =>
    obtain ⟨j, hv, hs, rfl⟩ := h
    have := hv.lt
    exact ⟨by omega, fun ha => ⟨j, hv.mono (ha.sub le_rfl (by omega)),
      ha.stepAt hs (by omega) (by omega), rfl⟩⟩
  | .ifElse cond body elseIfs otherwise line =>
    obtain ⟨a, b, next, hc, hj, hb, he⟩ := h
    have hia := hc.lt
    obtain ⟨hab, hb'⟩ := Stmt.AtAll.mono hb
    have hlast {l : Layer} {b next : Nat} (h : Stmt.LastAt J ps outer l k otherwise b next) :
        b ≤ k ∧ (Agrees J J' b k → Stmt.LastAt J' ps outer l k otherwise b next) := by
      match otherwise, h with
      | some other, h =>
        obtain ⟨hj, hn, ho⟩ := h
        obtain ⟨hbk, ho'⟩ := Stmt.AtAll.mono ho
        exact ⟨by omega, fun ha => ⟨ha.stepAt hj le_rfl hbk, hn, ho' (ha.sub (by omega) le_rfl)⟩⟩
      | none, h => exact ⟨h.2.ge, fun _ => h⟩
    obtain ⟨hbk, he'⟩ := ElseIf.AtAll.mono he hlast
    exact ⟨by omega, fun ha => ⟨a, b, next, hc.mono (ha.sub le_rfl (by omega)),
      ha.stepAt hj (by omega) (by omega), hb' (ha.sub (by omega) hbk), he' (ha.sub (by omega) le_rfl)⟩⟩
  | .whileDo cond body line =>
    obtain ⟨a, b, hc, hj, hb, hback, rfl⟩ := h
    have hia := hc.lt
    obtain ⟨hab, hb'⟩ := Stmt.AtAll.mono hb
    exact ⟨by omega, fun ha => ⟨a, b, hc.mono (ha.sub le_rfl (by omega)),
      ha.stepAt hj (by omega) (by omega), hb' (ha.sub (by omega) (by omega)),
      ha.stepAt hback (by omega) (by omega), rfl⟩⟩
  | .forTo counter start bound body line =>
    obtain ⟨a, b, c, hs, hst, hbd, ht, hb, hback, rfl⟩ := h
    have hia := hs.lt
    have hab := hbd.lt
    obtain ⟨hbc, hb'⟩ := Stmt.AtAll.mono hb
    exact ⟨by omega, fun ha => ⟨a, b, c, hs.mono (ha.sub le_rfl (by omega)),
      ha.stepAt hst (by omega) (by omega), hbd.mono (ha.sub (by omega) (by omega)),
      ha.stepAt ht (by omega) (by omega), hb' (ha.sub (by omega) (by omega)),
      ha.stepAt hback (by omega) (by omega), rfl⟩⟩
  | .read names line => exact ⟨ReadsAt.le h, ReadsAt.mono h⟩
  | .write values line => exact ⟨Expr.WritesAt.le h, Expr.WritesAt.mono h⟩
  | .call name line =>
    obtain ⟨hs, rfl⟩ := h
    exact ⟨by omega, fun ha => ⟨ha.stepAt hs le_rfl (by omega), rfl⟩⟩
  | .group body line => exact Stmt.AtAll.mono (show Stmt.AtAll J ps outer l body i k from h)
  | .procedure name body line =>
    obtain ⟨b, hj, he, hb, hl, rfl⟩ := h
    obtain ⟨hib, hb'⟩ := Block.At.mono hb
    exact ⟨by omega, fun ha => ⟨b, ha.stepAt hj le_rfl (by omega), ha.entryAt he,
      hb' (ha.sub (by omega) (by omega)), ha.stepAt hl (by omega) (by omega), rfl⟩⟩

theorem Stmt.AtAll.mono {J J' : JumpCode} {ps : List (List String)} {outer : List Layer} {l : Layer}
    {i k : Nat} {ss : List Stmt} (h : Stmt.AtAll J ps outer l ss i k) :
    i ≤ k ∧ (Agrees J J' i k → Stmt.AtAll J' ps outer l ss i k) := by
  match ss with
  | [] => exact ⟨Nat.le_of_eq h, fun _ => h⟩
  | s :: ss =>
    obtain ⟨j, hs, hss⟩ := h
    obtain ⟨hij, hs'⟩ := Stmt.At.mono hs
    obtain ⟨hjk, hss'⟩ := Stmt.AtAll.mono hss
    exact ⟨hij.trans hjk, fun ha => ⟨j, hs' (ha.sub le_rfl hjk), hss' (ha.sub hij le_rfl)⟩⟩

theorem ElseIf.AtAll.mono {J J' : JumpCode} {ps : List (List String)} {outer : List Layer} {l : Layer}
    {exit b next : Nat} {es : List ElseIf} {last last' : Layer → Nat → Nat → Prop}
    (h : ElseIf.AtAll J ps outer l exit es last b next)
    (hl : ∀ {l b next}, last l b next → b ≤ exit ∧ (Agrees J J' b exit → last' l b next)) :
    b ≤ exit ∧ (Agrees J J' b exit → ElseIf.AtAll J' ps outer l exit es last' b next) := by
  match es with
  | [] => exact hl h
  | ⟨cond, body, line⟩ :: others =>
    obtain ⟨hj, hn, a, c, next', hc, ht, hb, ho⟩ := h
    have hba := hc.lt
    obtain ⟨hac, hb'⟩ := Stmt.AtAll.mono hb
    obtain ⟨hce, ho'⟩ := ElseIf.AtAll.mono ho hl
    exact ⟨by omega, fun ha => ⟨ha.stepAt hj le_rfl (by omega), hn, a, c, next',
      hc.mono (ha.sub (by omega) (by omega)), ha.stepAt ht (by omega) (by omega),
      hb' (ha.sub (by omega) hce), ho' (ha.sub (by omega) le_rfl)⟩⟩

theorem Block.At.mono {J J' : JumpCode} {ps : List (List String)} {outer : List Layer} {l : Layer}
    {i k : Nat} {b : Block} (h : b.At J ps outer l i k) :
    i ≤ k ∧ (Agrees J J' i k → b.At J' ps outer l i k) := by
  match b with
  | ⟨decls, some s, line⟩ =>
    obtain ⟨j, hd, hs⟩ := h
    have hij := hd.le
    obtain ⟨hjk, hs'⟩ := Stmt.At.mono hs
    exact ⟨hij.trans hjk, fun ha => ⟨j, hd.mono (ha.sub le_rfl hjk), hs' (ha.sub hij le_rfl)⟩⟩
  | ⟨decls, none, line⟩ =>
    obtain ⟨j, hd, rfl⟩ := h
    exact ⟨hd.le, fun ha => ⟨j, hd.mono ha, rfl⟩⟩

end

/-- The steps of an expression are found from their end. -/
theorem Expr.At.guardStart (h : e.At J ps layers i k) (need : Nat) :
    Lowering.guardStart J.code (need + 1) k = Lowering.guardStart J.code need i := by
  induction e generalizing i k need with
  | binary op left right line ihl ihr =>
    obtain ⟨j, m, hl, hr, hop, rfl⟩ := h
    rw [Lowering.guardStart, hop]
    exact (ihr hr (need + 1)).trans (ihl hl need)
  | literal value line =>
    obtain ⟨hs, rfl⟩ := h
    rw [Lowering.guardStart, hs]
  | ident name line =>
    obtain ⟨hs, rfl⟩ := h
    rw [Lowering.guardStart, hs]

end PLZero
