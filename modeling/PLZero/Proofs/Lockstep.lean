import PLZero.Proofs.ModuleWriting
import PLZero.Target
import Mathlib.Data.List.Forall2

/-! The two targets read code in step: they keep the same scopes, as many unused expressions and the
same open markers. So both make a text of a code, or both refuse it at the same instruction and for the
same reason. Only the bound of a counting loop is read in two orders: without a value and without a
loop, one misses the loop and the other the value. -/

namespace PLZero

/-- Two results that are values related by `R`, or errors related by `E`. -/
inductive InStep {α β : Type} (R : α → β → Prop) (E : CodeError → CodeError → Prop) :
    Except CodeError α → Except CodeError β → Prop
  | ok {a : α} {b : β} (h : R a b) : InStep R E (.ok a) (.ok b)
  | error {err err' : CodeError} (h : E err err') : InStep R E (.error err) (.error err')

namespace InStep

variable {α β γ δ : Type} {R : α → β → Prop} {Q : γ → δ → Prop}
  {E E' : CodeError → CodeError → Prop} {x : Except CodeError α} {y : Except CodeError β}

theorem bind {f : α → Except CodeError γ} {g : β → Except CodeError δ} (h : InStep R E x y)
    (hfg : ∀ a b, R a b → InStep Q E (f a) (g b)) : InStep Q E (x >>= f) (y >>= g) := by
  cases h with
  | ok h => exact hfg _ _ h
  | error h => exact .error h

theorem imp (h : InStep R E x y) (hE : ∀ err err', E err err' → E' err err') :
    InStep R E' x y := by
  cases h with
  | ok h => exact .ok h
  | error h => exact .error (hE _ _ h)

theorem elim (h : InStep R E x y) :
    (∃ a b, x = .ok a ∧ y = .ok b ∧ R a b) ∨
      ∃ err err', x = .error err ∧ y = .error err' ∧ E err err' := by
  cases h with
  | ok h => exact .inl ⟨_, _, rfl, rfl, h⟩
  | error h => exact .inr ⟨_, _, rfl, rfl, h⟩

end InStep

theorem Markers.top_eq {φ β : Type} (m : Markers φ) (i : Instr) (select : φ → Option β) :
    m.top i select = (m.pop i select).map Prod.fst := by
  unfold Markers.top Markers.pop
  cases m with
  | nil => rfl
  | cons o rest => cases h : select o.frame <;> simp [Except.map, h]

theorem Markers.top_eq_head {φ β : Type} (m : Markers φ) (i : Instr) (select : φ → Option β) :
    m.top i select = match m.head?.bind (select ·.frame) with
      | some b => .ok b
      | none => .error (.unmatchedAt i) := by
  cases m <;> rfl

/-- Open markers of the same instructions whose frames are related pairwise. -/
abbrev Markers.Like {φ ψ : Type} (R : φ → ψ → Prop) (m : Markers φ) (m' : Markers ψ) : Prop :=
  List.Forall₂ (fun o o' => R o.frame o'.frame ∧ o'.marker = o.marker ∧ o'.line = o.line) m m'

namespace Markers

variable {φ ψ β γ : Type} {R : φ → ψ → Prop} {m : Markers φ} {m' : Markers ψ}
  {select : φ → Option β} {select' : ψ → Option γ}

/-- What two readers see of the innermost markers, with the markers around them. -/
def Seen (R : φ → ψ → Prop) (select : φ → Option β) (select' : ψ → Option γ) (m : Markers φ)
    (m' : Markers ψ) (b : β) (rest : Markers φ) (b' : γ) (rest' : Markers ψ) : Prop :=
  ∃ o o', m = o :: rest ∧ m' = o' :: rest' ∧ R o.frame o'.frame ∧ select o.frame = some b ∧
    select' o'.frame = some b' ∧ rest.Like R rest'

namespace Like

theorem push {f : φ} {f' : ψ} (h : m.Like R m') (hf : R f f') (i : Instr) :
    (m.push f i).Like R (m'.push f' i) :=
  .cons ⟨hf, rfl, rfl⟩ h

theorem pop (h : m.Like R m') (i : Instr)
    (hs : ∀ f f', R f f' → (select f).isSome = (select' f').isSome) :
    InStep (fun r r' => Seen R select select' m m' r.1 r.2 r'.1 r'.2) Eq (m.pop i select)
      (m'.pop i select') := by
  cases h with
  | nil => exact .error rfl
  | cons ho hm =>
    have hsome := hs _ _ ho.1
    simp only [Markers.pop]
    split
    · next b hb =>
      rw [hb] at hsome
      obtain ⟨b', hb'⟩ := Option.isSome_iff_exists.mp hsome.symm
      rw [hb']
      exact .ok ⟨_, _, rfl, rfl, ho.1, hb, hb', hm⟩
    · next hb =>
      rw [hb] at hsome
      rw [Option.not_isSome_iff_eq_none.mp (Bool.eq_false_iff.mp hsome.symm)]
      exact .error rfl

theorem top (h : m.Like R m') (i : Instr)
    (hs : ∀ f f', R f f' → (select f).isSome = (select' f').isSome) :
    InStep (fun b b' => ∃ rest rest', Seen R select select' m m' b rest b' rest') Eq
      (m.top i select) (m'.top i select') := by
  have hpop := h.pop i hs
  rw [top_eq, top_eq]
  generalize m.pop i select = x at hpop ⊢
  generalize m'.pop i select' = x' at hpop ⊢
  cases hpop with
  | ok hseen => exact .ok ⟨_, _, hseen⟩
  | error h => exact .error h

theorem finish (h : m.Like R m') : InStep (fun _ _ => True) Eq m.finish m'.finish := by
  cases h with
  | nil => exact .ok trivial
  | cons ho hm =>
    obtain ⟨-, hmarker, hline⟩ := ho
    simp only [Markers.finish, hmarker, hline]
    exact .error rfl

end Like

end Markers

/-- What the two emitters keep for the same open marker. -/
inductive FrameLike : StackModule.Writer.Frame → Script.Frame → Prop
  | procedure (d) : FrameLike .procedure (.procedure d)
  | branch (guards last) : FrameLike (.branch guards last) (.branch last)
  | whileLoop (number line) : FrameLike (.whileLoop number) (.whileLoop line)
  | forLoop (number id counter start) : FrameLike (.forLoop number id) (.forLoop counter start)

namespace FrameLike

variable {f : StackModule.Writer.Frame} {f' : Script.Frame}

theorem procedure? (h : FrameLike f f') : f.procedure?.isSome = f'.procedure?.isSome := by
  cases h <;> rfl

theorem branch? (h : FrameLike f f') : f.branch?.isSome = f'.branch?.isSome := by
  cases h <;> rfl

theorem while? (h : FrameLike f f') : f.while?.isSome = f'.while?.isSome := by
  cases h <;> rfl

theorem for? (h : FrameLike f f') : f.for?.isSome = f'.for?.isSome := by
  cases h <;> rfl

end FrameLike

def Script.Emitter.opened (e : Script.Emitter) : List Script.Draft :=
  e.current :: e.markers.filterMap (·.frame.procedure?)

structure EmitterLike (w : StackModule.Writer) (e : Script.Emitter) : Prop where
  scopes : e.scopes = w.scopes
  heights : e.opened.map (·.stack.length) = w.opened.map (·.stack.length)
  markers : w.markers.Like FrameLike e.markers

/-- At the bound of a counting loop there is neither a value nor such a loop. -/
def StackModule.Writer.Stalled (w : Writer) (i : Instr) : Prop :=
  (∃ name, i.op = .forTo name) ∧ w.current.stack = [] ∧ w.markers.head?.bind (·.frame.for?) = none

@[inherit_doc StackModule.Writer.Stalled]
def Script.Emitter.Stalled (e : Emitter) (i : Instr) : Prop :=
  (∃ name, i.op = .forTo name) ∧ e.current.stack = [] ∧ e.markers.head?.bind (·.frame.for?) = none

/-- The errors of the two targets at an instruction. -/
def StackModule.Writer.Refuses (w : Writer) (i : Instr) (err err' : CodeError) : Prop :=
  (w.Stalled i ∧ err = .unmatchedAt i ∧ err' = .underflowAt i) ∨ (¬ w.Stalled i ∧ err = err')

namespace EmitterLike

variable {w : StackModule.Writer} {e : Script.Emitter}

theorem initial : EmitterLike .initial .initial := ⟨rfl, rfl, .nil⟩

theorem stack (h : EmitterLike w e) : e.current.stack.length = w.current.stack.length := by
  have hheights := h.heights
  rw [StackModule.Writer.opened_eq] at hheights
  exact (List.cons.inj hheights).1

theorem withCurrent {d : StackModule.Writer.Draft} {d' : Script.Draft} (h : EmitterLike w e)
    (hd : d'.stack.length = d.stack.length) :
    EmitterLike (w.withCurrent d) { e with current := d' } := by
  have hheights := h.heights
  rw [StackModule.Writer.opened_eq] at hheights
  refine ⟨?_, ?_, ?_⟩
  · rw [StackModule.Writer.scopes_withCurrent]
    exact h.scopes
  · rw [StackModule.Writer.opened_withCurrent]
    exact congrArg₂ List.cons hd (List.cons.inj hheights).2
  · rw [StackModule.Writer.markers_withCurrent]
    exact h.markers

theorem add {d : Script.Draft} (h : EmitterLike w e) (edits : List StackModule.Edit)
    (hd : d.stack.length = e.current.stack.length) :
    EmitterLike (w.add edits) { e with current := d } :=
  h.withCurrent (hd.trans h.stack)

theorem stack_eq_nil (h : EmitterLike w e) : e.current.stack = [] ↔ w.current.stack = [] := by
  rw [← List.length_eq_zero_iff, ← List.length_eq_zero_iff, h.stack]

theorem no_loop (h : EmitterLike w e) :
    e.markers.head?.bind (·.frame.for?) = none ↔ w.markers.head?.bind (·.frame.for?) = none := by
  have hmarkers := h.markers
  generalize w.markers = m at hmarkers ⊢
  generalize e.markers = m' at hmarkers ⊢
  cases hmarkers with
  | nil => simp
  | cons ho hm =>
    simp only [List.head?_cons, Option.bind_some, ← Option.not_isSome_iff_eq_none, ho.1.for?]

theorem stalled (h : EmitterLike w e) (i : Instr) : e.Stalled i ↔ w.Stalled i := by
  unfold Script.Emitter.Stalled StackModule.Writer.Stalled
  rw [h.stack_eq_nil, h.no_loop]

theorem pop (h : EmitterLike w e) (i : Instr) :
    InStep (fun r r' => EmitterLike r.2 r'.2 ∧ r.2.markers = w.markers ∧ r'.2.markers = e.markers)
      Eq (w.pop i) (e.pop i) := by
  have hlength := h.stack
  unfold StackModule.Writer.pop Script.Emitter.pop
  cases hst : w.current.stack with
  | nil =>
    rw [h.stack_eq_nil.mpr hst]
    exact .error rfl
  | cons v rest =>
    cases hst' : e.current.stack with
    | nil => simp [hst, hst'] at hlength
    | cons v' rest' =>
      refine .ok ⟨h.withCurrent ?_, StackModule.Writer.markers_withCurrent .., rfl⟩
      simpa [hst, hst'] using hlength

theorem push (h : EmitterLike w e) (text : String) (v : Folded) :
    EmitterLike (w.push text) (e.push v) :=
  h.withCurrent (congrArg (· + 1) h.stack)

theorem binding (h : EmitterLike w e) (name : String) (i : Instr) :
    InStep (fun _ _ => True) Eq (w.scopes.binding name i) (e.binding name i) := by
  unfold Script.Emitter.binding
  rw [h.scopes]
  cases w.scopes.binding name i with
  | ok id => exact .ok trivial
  | error err => exact .error rfl

theorem procedure (h : EmitterLike w e) (name : String) (i : Instr) :
    InStep (fun _ _ => True) Eq (w.scopes.procedure name i)
      (discard (e.scopes.procedure name i)) := by
  rw [h.scopes]
  cases w.scopes.procedure name i with
  | ok id => exact .ok trivial
  | error err => exact .error rfl

theorem declare (h : EmitterLike w e) (name : String) (constant : Option Int32)
    (s : Script.Statement) (i : Instr) :
    EmitterLike (w.declare name constant) (e.declare name s i) := by
  have hwriter : EmitterLike (w.declare name constant)
      { e with scopes := e.scopes.declare name } := by
    simp only [StackModule.Writer.declare]
    split
    · have h' (id : String) : EmitterLike (w.save id) e := h.withCurrent h.stack
      exact ⟨congrArg (Scopes.declare · name) h.scopes, (h' _).heights, (h' _).markers⟩
    · exact ⟨congrArg (Scopes.declare · name) h.scopes, h.heights, h.markers⟩
  simp only [Script.Emitter.declare]
  split
  · exact ⟨hwriter.scopes, hwriter.heights, hwriter.markers⟩
  · exact ⟨hwriter.scopes, hwriter.heights, hwriter.markers⟩

theorem endProcedure (h : EmitterLike w e) (i : Instr) :
    InStep EmitterLike Eq (w.endProcedure i) (e.endProcedure i) := by
  refine (h.markers.pop i fun _ _ => FrameLike.procedure?).bind ?_
  rintro ⟨u, ms⟩ ⟨d, ms'⟩ ⟨o, o', hm, hm', hf, hu, hd, hms⟩
  obtain ⟨f, marker, line⟩ := o
  obtain ⟨f', marker', line'⟩ := o'
  cases hf with
  | branch | whileLoop | forLoop => cases hu
  | procedure d =>
    cases hd
    have hheights := h.heights
    unfold Script.Emitter.opened StackModule.Writer.opened at hheights
    rw [hm'] at hheights
    cases hp : w.procedures with
    | nil => simp [hp, Script.Frame.procedure?] at hheights
    | cons p ps =>
      rw [hp] at hheights
      have hscopes := congrArg Scopes.leave h.scopes
      simp only
      split
      · exact .ok ⟨hscopes, (List.cons.inj hheights).2, hms⟩
      · exact .ok ⟨hscopes, (List.cons.inj hheights).2, hms⟩

/-- Where a guarded branch is open for one target it is so for the other. -/
theorem continueIf (h : EmitterLike w e) (i : Instr) (isLast : Bool) :
    InStep (fun w' _ => EmitterLike w' { e with markers := e.markers.replace (.branch isLast) } ∧
      e.markers.replace (.branch false) = e.markers) Eq (w.continueIf i isLast) (e.checkBranch i) := by
  refine (h.markers.top i fun _ _ => FrameLike.branch?).bind ?_
  rintro ⟨guards, last⟩ last' ⟨rest, rest', o, o', hm, hm', hf, hx, hx', hrest⟩
  obtain ⟨f, marker, line⟩ := o
  obtain ⟨f', marker', line'⟩ := o'
  cases hf with
  | procedure | whileLoop | forLoop => cases hx
  | branch =>
    cases hx
    cases hx'
    cases last with
    | true => exact .error rfl
    | false =>
      have hheights := h.heights
      unfold Script.Emitter.opened at hheights
      have hmarkers := h.markers
      rw [hm, hm'] at hmarkers
      rw [hm'] at hheights ⊢
      obtain _ | ⟨ho, hrest⟩ := hmarkers
      refine .ok ⟨⟨h.scopes, hheights, ?_⟩, rfl⟩
      simp only [hm]
      cases isLast with
      | false => exact .cons ⟨.branch .., ho.2⟩ hrest
      | true => exact .cons ⟨.branch .., ho.2⟩ hrest

theorem startLoop {frame : Nat → StackModule.Writer.Frame} {f' : Script.Frame} (h : EmitterLike w e)
    (hf : ∀ n, FrameLike (frame n) f') (hs : f'.procedure? = none) (i : Instr) :
    EmitterLike (w.startLoop frame i) { e with markers := e.markers.push f' i } := by
  have h' := h.add (StackModule.Writer.openLoop (w.loops + 1)) (d := e.current) rfl
  have hmarkers := h.markers.push (hf (w.loops + 1)) i
  cases f' with
  | procedure => cases hs
  | branch | whileLoop | forLoop => exact ⟨h'.scopes, h'.heights, hmarkers⟩

theorem close {β γ : Type} {select : StackModule.Writer.Frame → Option β}
    {select' : Script.Frame → Option γ} {b : β} {b' : γ} {rest : Markers StackModule.Writer.Frame}
    {rest' : Markers Script.Frame} (h : EmitterLike w e)
    (hr : Markers.Seen FrameLike select select' w.markers e.markers b rest b' rest')
    (hs : ∀ d, select' (.procedure d) = none) (edits : List StackModule.Edit) :
    EmitterLike { w.add edits with markers := rest } { e.close with markers := rest' } := by
  obtain ⟨o, o', -, hm', -, -, hx', hrest⟩ := hr
  have h' := h.add edits (d := e.current) rfl
  have hheights := h'.heights
  simp only [Script.Emitter.opened, hm'] at hheights
  obtain ⟨f', marker', line'⟩ := o'
  cases f' with
  | procedure d => cases (hs d).symm.trans hx'
  | branch | whileLoop | forLoop => exact ⟨h'.scopes, hheights, hrest⟩

/-- The module looks for the loop first, the script for the value. -/
theorem testFor (h : EmitterLike w e) {i : Instr} {name : String} (hi : i.op = .forTo name) :
    InStep EmitterLike (w.Refuses i) (w.testFor i) (e.testFor i) := by
  have hpop := h.pop i
  unfold StackModule.Writer.testFor Script.Emitter.testFor
  cases hst : w.current.stack with
  | nil =>
    have hunder : w.pop i = .error (.underflowAt i) := by simp only [StackModule.Writer.pop, hst]
    rw [hunder] at hpop ⊢
    generalize e.pop i = x' at hpop ⊢
    cases hpop with
    | error herr =>
      subst herr
      rw [Markers.top_eq_head]
      cases hl : w.markers.head?.bind (·.frame.for?) with
      | none => exact .error (.inl ⟨⟨⟨name, hi⟩, hst, hl⟩, rfl, rfl⟩)
      | some b => exact .error (.inr ⟨fun hs => Option.some_ne_none b (hl.symm.trans hs.2.2), rfl⟩)
  | cons v rest =>
    have hsame : ¬ w.Stalled i := fun hs => List.cons_ne_nil v rest (hst.symm.trans hs.2.1)
    generalize hx : w.pop i = x at hpop ⊢
    generalize hx' : e.pop i = x' at hpop ⊢
    cases hpop with
    | error _ => simp [StackModule.Writer.pop, hst] at hx
    | @ok r r' hlike =>
      obtain ⟨hlike, -, hm⟩ := hlike
      have htop := h.markers.top i fun _ _ => FrameLike.for?
      rw [← hm] at htop
      simp only [bind, Except.bind]
      generalize w.markers.top i StackModule.Writer.Frame.for? = y at htop ⊢
      generalize r'.2.markers.top i Script.Frame.for? = y' at htop ⊢
      cases htop with
      | ok _ => exact .ok (hlike.add _ rfl)
      | error heq => exact .error (.inr ⟨hsame, heq⟩)

theorem instr (h : EmitterLike w e) (i : Instr) :
    InStep EmitterLike (w.Refuses i) (w.instr i) (e.instr i) := by
  have hsame (hi : ∀ name, i.op ≠ .forTo name)
      (hstep : InStep EmitterLike Eq (w.instr i) (e.instr i)) :
      InStep EmitterLike (w.Refuses i) (w.instr i) (e.instr i) :=
    hstep.imp fun _ _ heq => .inr ⟨fun hs => hs.1.elim hi, heq⟩
  obtain ⟨op, line⟩ := i
  cases op with
  | forTo name => exact h.testFor rfl
  | declare name => exact .ok (h.declare name none _ _)
  | const name value => exact .ok (h.declare name (some value) _ _)
  | push value => exact .ok (h.push _ _)
  | procedureStart name =>
    exact .ok ⟨congrArg (Scopes.enter · name) h.scopes, congrArg (0 :: ·) h.heights,
      h.markers.push (.procedure e.current) _⟩
  | whileMark => exact .ok (h.startLoop (.whileLoop · line) rfl _)
  | load name =>
    apply hsame (by simp)
    exact (h.binding name _).bind fun _ _ _ => .ok (h.push _ _)
  | oper op =>
    apply hsame (by simp)
    exact (h.pop _).bind fun _ _ ⟨h, _⟩ => (h.pop _).bind fun _ _ ⟨h, _⟩ => .ok (h.push _ _)
  | store name =>
    apply hsame (by simp)
    exact (h.binding name _).bind fun _ _ _ => (h.pop _).bind fun _ _ ⟨h, _⟩ => .ok (h.add _ rfl)
  | call name =>
    apply hsame (by simp)
    exact (h.procedure name _).bind fun _ _ _ => .ok (h.add _ rfl)
  | read name =>
    apply hsame (by simp)
    exact (h.binding name _).bind fun _ _ _ => .ok (h.add _ rfl)
  | write =>
    apply hsame (by simp)
    exact (h.pop _).bind fun _ _ ⟨h, _⟩ => .ok (h.add _ rfl)
  | procedureEnd name =>
    apply hsame (by simp)
    exact h.endProcedure _
  | ifMark =>
    apply hsame (by simp)
    refine (h.pop _).bind fun r r' ⟨h, _⟩ => ?_
    have h' := h.add (StackModule.Writer.openGuard r.1) (d := r'.2.current) rfl
    exact .ok ⟨h'.scopes, h'.heights, h.markers.push (.branch 1 false) _⟩
  | elseIf =>
    apply hsame (by simp)
    refine (h.continueIf _ false).bind fun w' _ ⟨h', hmarkers⟩ => ?_
    rw [hmarkers] at h'
    exact (h'.pop _).bind fun _ _ ⟨h, _⟩ => .ok (h.add _ rfl)
  | elseMark =>
    apply hsame (by simp)
    exact (h.continueIf _ true).bind fun w' _ ⟨h', _⟩ => .ok (h'.add _ rfl)
  | endIf =>
    apply hsame (by simp)
    exact (h.markers.pop _ fun _ _ => FrameLike.branch?).bind fun _ _ hr =>
      .ok (h.close hr (fun _ => rfl) _)
  | doMark =>
    apply hsame (by simp)
    exact (h.markers.top _ fun _ _ => FrameLike.while?).bind fun _ _ _ =>
      (h.pop _).bind fun _ _ ⟨h, _⟩ => .ok (h.add _ rfl)
  | endWhile =>
    apply hsame (by simp)
    exact (h.markers.pop _ fun _ _ => FrameLike.while?).bind fun _ _ hr =>
      .ok (h.close hr (fun _ => rfl) _)
  | forInit name =>
    apply hsame (by simp)
    exact (h.binding name _).bind fun _ _ _ => (h.pop _).bind fun _ r' ⟨h, _⟩ =>
      .ok ((h.add _ (d := r'.2.current) rfl).startLoop (.forLoop · _ _ _) rfl _)
  | endFor name =>
    apply hsame (by simp)
    exact (h.markers.pop _ fun _ _ => FrameLike.for?).bind fun _ _ hr =>
      .ok (h.close hr (fun _ => rfl) _)

/-- Both targets take all of a code, or both stop at the same instruction. -/
theorem run (h : EmitterLike w e) (code : List Instr) :
    (∃ r r', code.foldlM StackModule.Writer.instr w = .ok r ∧
      code.foldlM Script.Emitter.instr e = .ok r' ∧ EmitterLike r r') ∨
    ∃ before i after r r' err err', code = before ++ i :: after ∧
      before.foldlM StackModule.Writer.instr w = .ok r ∧
      before.foldlM Script.Emitter.instr e = .ok r' ∧
      EmitterLike r r' ∧ r.instr i = .error err ∧ r'.instr i = .error err' ∧ r.Refuses i err err' := by
  induction code generalizing w e with
  | nil => exact .inl ⟨w, e, rfl, rfl, h⟩
  | cons i code ih =>
    simp only [List.foldlM_cons]
    rcases (h.instr i).elim with ⟨r, r', hi, hi', hlike⟩ | ⟨err, err', hi, hi', hrefuses⟩
    · rw [hi, hi']
      rcases ih hlike with hall | ⟨before, j, after, q, q', err, err', hcode, hq, hq', hrest⟩
      · exact .inl hall
      · refine .inr ⟨i :: before, j, after, q, q', err, err', by rw [hcode, List.cons_append],
          ?_, ?_, hrest⟩
        · rw [List.foldlM_cons, hi]
          exact hq
        · rw [List.foldlM_cons, hi']
          exact hq'
    · exact .inr ⟨[], i, code, w, e, err, err', rfl, rfl, rfl, h, hi, hi', hrefuses⟩

end EmitterLike

theorem foldlM_of_stop {σ : Type} {step : σ → Instr → Except CodeError σ} {s r : σ}
    {before after : List Instr} {i : Instr} {err : CodeError} (h : before.foldlM step s = .ok r)
    (hi : step r i = .error err) : (before ++ i :: after).foldlM step s = .error err := by
  rw [List.foldlM_append, h]
  simp only [bind, Except.bind, List.foldlM_cons, hi]

namespace Target

section

variable {code : List Instr} {w : StackModule.Writer} {e : Script.Emitter} {err err' : CodeError}

theorem render_of_stop (h : code.foldlM StackModule.Writer.instr .initial = .error err)
    (h' : code.foldlM Script.Emitter.instr .initial = .error err') :
    stackModule.render code = .error err ∧ script.render code = .error err' := by
  constructor
  · simp only [render, StackModule.Writer.ofCode, h, bind, Except.bind]
  · simp only [render, Script.ofCode, h', bind, Except.bind]

theorem render_of_unclosed (hw : code.foldlM StackModule.Writer.instr .initial = .ok w)
    (hm : w.markers.finish = .error err) (he : code.foldlM Script.Emitter.instr .initial = .ok e)
    (hm' : e.markers.finish = .error err') :
    stackModule.render code = .error err ∧ script.render code = .error err' := by
  constructor
  · simp only [render, StackModule.Writer.ofCode, hw, hm, bind, Except.bind]
  · simp only [render, Script.ofCode, he, hm', bind, Except.bind]

theorem render_of_closed (hw : code.foldlM StackModule.Writer.instr .initial = .ok w)
    (hm : w.markers.finish = .ok ()) (he : code.foldlM Script.Emitter.instr .initial = .ok e)
    (hm' : e.markers.finish = .ok ()) :
    ∃ out out', stackModule.render code = .ok out ∧ script.render code = .ok out' := by
  simp only [render, StackModule.Writer.ofCode, Script.ofCode, hw, hm, he, hm', bind, Except.bind]
  exact ⟨_, _, rfl, rfl⟩

end

/-- Both targets accept a code or both refuse it: for a marker that stays open, or at the same
instruction. The reasons differ only where the bound of a counting loop has neither a value nor such a
loop. -/
theorem render_in_step (code : List Instr) :
    ((∃ out, stackModule.render code = .ok out) ↔ ∃ out, script.render code = .ok out) ∧
    ((∃ out out', stackModule.render code = .ok out ∧ script.render code = .ok out') ∨
      (∃ w e err, code.foldlM StackModule.Writer.instr .initial = .ok w ∧
        code.foldlM Script.Emitter.instr .initial = .ok e ∧ stackModule.render code = .error err ∧
        script.render code = .error err) ∨
      ∃ before i after w e err err', code = before ++ i :: after ∧
        before.foldlM StackModule.Writer.instr .initial = .ok w ∧
        before.foldlM Script.Emitter.instr .initial = .ok e ∧
        w.instr i = .error err ∧ e.instr i = .error err' ∧
        stackModule.render code = .error err ∧ script.render code = .error err' ∧
        ((w.Stalled i ∧ e.Stalled i ∧ err = .unmatchedAt i ∧ err' = .underflowAt i) ∨
          (¬ w.Stalled i ∧ ¬ e.Stalled i ∧ err = err'))) := by
  rcases EmitterLike.initial.run code with ⟨w, e, hw, he, hlike⟩ |
    ⟨before, i, after, w, e, err, err', hcode, hw, he, hlike, hi, hi', hrefuses⟩
  · rcases hlike.markers.finish.elim with ⟨_, _, hm, hm', -⟩ | ⟨err, _, hm, hm', rfl⟩
    · obtain ⟨out, out', h, h'⟩ := render_of_closed hw hm he hm'
      exact ⟨by simp [h, h'], .inl ⟨out, out', h, h'⟩⟩
    · obtain ⟨h, h'⟩ := render_of_unclosed hw hm he hm'
      exact ⟨by simp [h, h'], .inr (.inl ⟨w, e, err, hw, he, h, h'⟩)⟩
  · obtain ⟨h, h'⟩ := render_of_stop (hcode ▸ foldlM_of_stop hw hi) (hcode ▸ foldlM_of_stop he hi')
    refine ⟨by simp [h, h'], .inr (.inr ⟨before, i, after, w, e, err, err', hcode, hw, he, hi, hi',
      h, h', ?_⟩)⟩
    rw [hlike.stalled i]
    rcases hrefuses with ⟨hs, herr, herr'⟩ | ⟨hs, heq⟩
    · exact .inl ⟨hs, hs, herr, herr'⟩
    · exact .inr ⟨hs, hs, heq⟩

-- a bound without a value, outside all loops
example : stackModule.render [⟨.forTo "i", 7⟩] = .error (.unmatched "FOR_TO i" 7) ∧
    script.render [⟨.forTo "i", 7⟩] = .error (.underflow "FOR_TO i" 7) := ⟨rfl, rfl⟩

end Target

end PLZero
