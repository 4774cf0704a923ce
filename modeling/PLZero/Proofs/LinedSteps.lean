import PLZero.Proofs.Constructs
import PLZero.Replay.Lower
import Mathlib.Data.List.Forall2

/-! The steps of jump code that have a source line. They are the instructions of the code, one step each and in their
order: jumps, returns and the steps of counting loops come between them, and a guard that is moved takes its place behind
the jump. This holds of all code that has jump code, also where its names or markers make no sense. -/

namespace PLZero

/-- Instructions that are executed; the others only mark where a construct begins, goes on or ends. -/
def Instr.isExecuted (i : Instr) : Bool :=
  match i.op with
  | .declare _ | .const .. | .load _ | .store _ | .push _ | .oper _ | .read _ | .write | .call _ | .ifMark | .elseIf
  | .doMark | .forInit _ | .forTo _ => true
  | .procedureStart _ | .procedureEnd _ | .elseMark | .endIf | .whileMark | .endWhile | .endFor _ => false

namespace Replay

namespace Step

/-- The steps that stand for no instruction. -/
def isTransfer : Step → Bool
  | .jump _ | .leave | .forStep .. => true
  | _ => false

def targets : Step → List Nat
  | .jump target | .jumpIfFalse target | .forTest _ target | .forStep _ target => [target]
  | _ => []

/-- The steps that expressions consist of. -/
def computes : Step → Bool
  | .push _ | .load _ | .oper _ => true
  | _ => false

theorem isTransfer_withTarget (step : Step) (target : Nat) : (step.withTarget target).isTransfer = step.isTransfer := by
  cases step <;> rfl

theorem mem_targets_withTarget {step : Step} {target t : Nat} (h : t ∈ (step.withTarget target).targets) :
    t = target ∨ t ∈ step.targets := by
  cases step with
  | jump | jumpIfFalse | forTest => exact .inl (List.mem_singleton.mp h)
  | declare | const | load | store | push | oper | read | write | call | leave | forStep => exact .inr h

end Step

def Exec.isLined (e : Exec) : Bool := e.line.isSome

/-- The step of an instruction, with the operands and the line of the instruction. A name stands for a variable of that
name, or for a procedure with that name at the end of its qualified name. -/
def Renders (procedures : Array Procedure) (i : Instr) (e : Exec) : Prop :=
  e.line = some i.line ∧
    match i.op with
    | .declare name => ∃ owner, e.step = .declare ⟨owner, name⟩
    | .const name value => ∃ owner, e.step = .const ⟨owner, name⟩ value
    | .load name => ∃ owner, e.step = .load ⟨owner, name⟩
    | .store name | .forInit name => ∃ owner, e.step = .store ⟨owner, name⟩
    | .push value => e.step = .push value
    | .oper op => e.step = .oper op
    | .read name => ∃ owner, e.step = .read ⟨owner, name⟩
    | .write => e.step = .write
    | .call name => ∃ number path entry, e.step = .call number ∧ procedures[number]? = some ⟨qualify path name, entry⟩
    | .ifMark | .elseIf | .doMark => ∃ target, e.step = .jumpIfFalse target
    | .forTo _ => ∃ counter exit, e.step = .forTest counter exit
    | _ => False

/-- The same step, or the same with another target up to `n`. -/
def Retargets (n : Nat) (e e' : Exec) : Prop :=
  e' = e ∨ ∃ target ≤ n, e' = { e with step := e.step.withTarget target }

section

variable {procedures : Array Procedure} {i : Instr} {e e' : Exec} {n : Nat}

theorem Retargets.line (h : Retargets n e e') : e'.line = e.line := by
  rcases h with rfl | ⟨target, -, rfl⟩
  · rfl
  · rfl

theorem Retargets.isLined (h : Retargets n e e') : e'.isLined = e.isLined := congrArg Option.isSome h.line

theorem Retargets.isTransfer (h : Retargets n e e') : e'.step.isTransfer = e.step.isTransfer := by
  rcases h with rfl | ⟨target, -, rfl⟩
  · rfl
  · exact e.step.isTransfer_withTarget target

theorem Retargets.targets {t : Nat} (h : Retargets n e e') (ht : t ∈ e'.step.targets) : t ≤ n ∨ t ∈ e.step.targets := by
  rcases h with rfl | ⟨target, hle, rfl⟩
  · exact .inr ht
  · exact (Step.mem_targets_withTarget ht).imp_left fun (heq : t = target) => heq ▸ hle

theorem Retargets.mono {n' : Nat} (h : Retargets n e e') (hle : n ≤ n') : Retargets n' e e' :=
  h.imp_right fun ⟨target, htarget, heq⟩ => ⟨target, Nat.le_trans htarget hle, heq⟩

theorem Renders.isExecuted (h : Renders procedures i e) : i.isExecuted = true := by
  obtain ⟨op, line⟩ := i
  cases op with
  | procedureStart | procedureEnd | elseMark | endIf | whileMark | endWhile | endFor => exact h.2.elim
  | declare | const | load | store | push | oper | call | read | write | ifMark | elseIf | doMark | forInit | forTo =>
    rfl

theorem Renders.not_isTransfer (h : Renders procedures i e) : e.step.isTransfer = false := by
  obtain ⟨op, line⟩ := i
  obtain ⟨step, line'⟩ := e
  cases op with
  | declare | const | load | store | read | forInit | ifMark | elseIf | doMark =>
    obtain ⟨-, x, rfl⟩ := h
    rfl
  | push | oper | write =>
    obtain ⟨-, rfl⟩ := h
    rfl
  | call =>
    obtain ⟨-, number, path, entry, rfl, -⟩ := h
    rfl
  | forTo =>
    obtain ⟨-, counter, exit, rfl⟩ := h
    rfl
  | procedureStart | procedureEnd | elseMark | endIf | whileMark | endWhile | endFor => exact h.2.elim

theorem Renders.retarget (h : Renders procedures i e) (hr : Retargets n e e') : Renders procedures i e' := by
  rcases hr with rfl | ⟨target, -, rfl⟩
  · exact h
  · obtain ⟨op, line⟩ := i
    obtain ⟨step, line'⟩ := e
    refine ⟨h.1, ?_⟩
    cases op with
    | declare | const | load | store | read | forInit =>
      obtain ⟨-, owner, rfl⟩ := h
      exact ⟨owner, rfl⟩
    | ifMark | elseIf | doMark =>
      obtain ⟨-, target', rfl⟩ := h
      exact ⟨target, rfl⟩
    | push | oper | write =>
      obtain ⟨-, rfl⟩ := h
      rfl
    | call =>
      obtain ⟨-, number, path, entry, rfl, hnumber⟩ := h
      exact ⟨number, path, entry, rfl, hnumber⟩
    | forTo =>
      obtain ⟨-, counter, exit, rfl⟩ := h
      exact ⟨counter, target, rfl⟩
    | procedureStart | procedureEnd | elseMark | endIf | whileMark | endWhile | endFor => exact h.2.elim

theorem Renders.mono {procedures' : Array Procedure} (h : Renders procedures i e)
    (hp : ∀ (k : Nat) q, procedures[k]? = some q → procedures'[k]? = some q) : Renders procedures' i e := by
  obtain ⟨op, line⟩ := i
  refine ⟨h.1, ?_⟩
  cases op with
  | call =>
    obtain ⟨-, number, path, entry, hstep, hnumber⟩ := h
    exact ⟨number, path, entry, hstep, hp _ _ hnumber⟩
  | declare | const | load | store | push | oper | read | write | ifMark | elseIf | doMark | forInit | forTo
  | procedureStart | procedureEnd | elseMark | endIf | whileMark | endWhile | endFor => exact h.2

end

/-- Code that is rendered by jump code: its instructions are the steps with a line, the other steps are transfers, and
no step names a position behind the end. -/
structure RenderedBy (procedures : Array Procedure) (done : List Instr) (code : List Exec) : Prop where
  steps : List.Forall₂ (Renders procedures) (done.filter Instr.isExecuted) (code.filter Exec.isLined)
  transfers : ∀ e ∈ code, e.line = none ↔ e.step.isTransfer = true
  targets : ∀ e ∈ code, ∀ target ∈ e.step.targets, target ≤ code.length

namespace RenderedBy

variable {procedures procedures' : Array Procedure} {done : List Instr} {code code' : List Exec}
  {i : Instr} {e : Exec} {n : Nat}

theorem nil : RenderedBy procedures [] [] := ⟨.nil, List.forall_mem_nil _, List.forall_mem_nil _⟩

theorem mono (h : RenderedBy procedures done code)
    (hp : ∀ (k : Nat) q, procedures[k]? = some q → procedures'[k]? = some q) : RenderedBy procedures' done code :=
  ⟨h.steps.imp fun _ _ hr => hr.mono hp, h.transfers, h.targets⟩

theorem mark (h : RenderedBy procedures done code) (hi : i.isExecuted = false) :
    RenderedBy procedures (done ++ [i]) code := by
  refine ⟨?_, h.transfers, h.targets⟩
  rw [List.filter_append, List.filter_cons_of_neg (by simp [hi]), List.filter_nil, List.append_nil]
  exact h.steps

theorem concat (h : RenderedBy procedures done code) (he : Renders procedures i e)
    (ht : ∀ target ∈ e.step.targets, target ≤ code.length) :
    RenderedBy procedures (done ++ [i]) (code ++ [e]) where
  steps := by
    have hline : e.isLined = true := by rw [Exec.isLined, he.1]; rfl
    rw [List.filter_append, List.filter_cons_of_pos he.isExecuted, List.filter_append, List.filter_cons_of_pos hline]
    exact List.rel_append h.steps (.cons he .nil)
  transfers := by
    refine List.forall_mem_append.mpr ⟨h.transfers, List.forall_mem_singleton.mpr ?_⟩
    rw [he.1, he.not_isTransfer]
    exact ⟨nofun, nofun⟩
  targets := by
    rw [List.length_append]
    refine List.forall_mem_append.mpr ⟨fun e he target ht => ?_, List.forall_mem_singleton.mpr fun target htarget => ?_⟩
    · exact Nat.le_add_right_of_le (h.targets e he target ht)
    · exact Nat.le_add_right_of_le (ht target htarget)

/-- A transfer can come anywhere. -/
theorem insert {step : Step} (before behind : List Exec) (h : RenderedBy procedures done (before ++ behind))
    (hs : step.isTransfer = true) (ht : ∀ target ∈ step.targets, target ≤ (before ++ behind).length) :
    RenderedBy procedures done (before ++ ⟨step, none⟩ :: behind) where
  steps := by
    have hline : ¬ Exec.isLined ⟨step, none⟩ = true := nofun
    rw [List.filter_append, List.filter_cons_of_neg hline, ← List.filter_append]
    exact h.steps
  transfers e he := by
    rcases List.mem_append.mp he with he | he
    · exact h.transfers e (List.mem_append_left _ he)
    · rcases List.mem_cons.mp he with rfl | he
      · exact ⟨fun _ => hs, fun _ => rfl⟩
      · exact h.transfers e (List.mem_append_right _ he)
  targets e he target htarget := by
    have hlength : (before ++ ⟨step, none⟩ :: behind).length = (before ++ behind).length + 1 := by
      simp only [List.length_append, List.length_cons, Nat.add_assoc]
    rw [hlength]
    refine Nat.le_succ_of_le ?_
    rcases List.mem_append.mp he with he | he
    · exact h.targets e (List.mem_append_left _ he) target htarget
    · rcases List.mem_cons.mp he with rfl | he
      · exact ht target htarget
      · exact h.targets e (List.mem_append_right _ he) target htarget

theorem steps_retarget {is : List Instr} (h : List.Forall₂ (Renders procedures) is (code.filter Exec.isLined))
    (hr : List.Forall₂ (Retargets n) code code') : List.Forall₂ (Renders procedures) is (code'.filter Exec.isLined) := by
  induction hr generalizing is with
  | nil => exact h
  | @cons e e' code code' he _ ih =>
    by_cases hline : e.isLined = true
    · rw [List.filter_cons_of_pos hline] at h
      rw [List.filter_cons_of_pos (he.isLined.trans hline)]
      obtain ⟨i, is, hi, his, rfl⟩ := List.forall₂_cons_right_iff.mp h
      exact .cons (hi.retarget he) (ih his)
    · rw [List.filter_cons_of_neg hline] at h
      rw [List.filter_cons_of_neg (he.isLined ▸ hline)]
      exact ih h

theorem exists_of_mem_right {R : Exec → Exec → Prop} (h : List.Forall₂ R code code') (he : e ∈ code') :
    ∃ e₀ ∈ code, R e₀ e := by
  induction h with
  | nil => cases he
  | @cons e₀ _ _ _ hr _ ih =>
    rcases List.mem_cons.mp he with rfl | he
    · exact ⟨e₀, List.mem_cons_self, hr⟩
    · obtain ⟨e₁, he₁, hr₁⟩ := ih he
      exact ⟨e₁, List.mem_cons_of_mem _ he₁, hr₁⟩

/-- Steps can get other targets up to the end of the code. -/
theorem retarget (h : RenderedBy procedures done code) (hr : List.Forall₂ (Retargets code.length) code code') :
    RenderedBy procedures done code' where
  steps := steps_retarget h.steps hr
  transfers e he := by
    obtain ⟨e₀, he₀, hre⟩ := exists_of_mem_right hr he
    rw [hre.line, hre.isTransfer]
    exact h.transfers e₀ he₀
  targets e he target ht := by
    obtain ⟨e₀, he₀, hre⟩ := exists_of_mem_right hr he
    rw [← hr.length_eq]
    exact (hre.targets ht).elim id (h.targets e₀ he₀ target)

end RenderedBy

/-- How the code changes for a further branch, on a line: the guard at its end is moved as it is behind a jump, the step
of the branch comes behind it, and in front of it only targets change. -/
def MovesGuard (line : Nat) (code code' : List Exec) : Prop :=
  ∃ front guard front', code = front ++ guard ∧ (∀ e ∈ guard, e.step.computes = true) ∧
    List.Forall₂ (Retargets (code.length + 1)) (front ++ [⟨.jump 0, none⟩]) front' ∧
    code' = front' ++ guard ++ [⟨.jumpIfFalse 0, some line⟩]

section Guards

variable {code : Array Exec} {p start : Nat}

/-- The steps of a guard only compute its value. -/
theorem guardStart_computes {need : Nat} (h : Lowering.guardStart code need p = some start) :
    start ≤ p ∧ ∀ q, start ≤ q → q < p → ∃ e, code[q]? = some e ∧ e.step.computes = true := by
  have hgrow {start p : Nat} {e : Exec} (hp : code[p]? = some e) (he : e.step.computes = true)
      (h : start ≤ p ∧ ∀ q, start ≤ q → q < p → ∃ e, code[q]? = some e ∧ e.step.computes = true) :
      start ≤ p + 1 ∧ ∀ q, start ≤ q → q < p + 1 → ∃ e, code[q]? = some e ∧ e.step.computes = true := by
    refine ⟨Nat.le_succ_of_le h.1, fun q hq hlt => ?_⟩
    rcases Nat.lt_or_eq_of_le (Nat.le_of_lt_succ hlt) with hlt | rfl
    · exact h.2 q hq hlt
    · exact ⟨e, hp, he⟩
  fun_induction Lowering.guardStart code need p with
  | case1 p =>
    cases h
    exact ⟨Nat.le_refl _, fun q h h' => absurd (Nat.lt_of_lt_of_le h' h) (Nat.lt_irrefl _)⟩
  | case2 => cases h
  | case3 n p v line hp ih => exact hgrow hp rfl (ih h)
  | case4 n p v line hp ih => exact hgrow hp rfl (ih h)
  | case5 n p op line hp ih => exact hgrow hp rfl (ih h)
  | case6 => cases h

theorem guard_split (h : Lowering.guardStart code 1 code.size = some start) :
    start ≤ code.size ∧ code = code.shrink start ++ code.extract start ∧
      ∀ e ∈ code.extract start, e.step.computes = true := by
  obtain ⟨hstart, hguard⟩ := guardStart_computes h
  refine ⟨hstart, by simp [Array.shrink_eq_take, Array.take_eq_extract, Nat.max_eq_right hstart], fun e he => ?_⟩
  obtain ⟨k, hk⟩ := Array.mem_iff_getElem?.mp he
  rw [Array.getElem?_extract] at hk
  split at hk
  · next hlt =>
    obtain ⟨e', he', hcomputes⟩ := hguard (start + k) (Nat.le_add_right _ _) (by omega)
    obtain rfl := Option.some.inj (he'.symm.trans hk)
    exact hcomputes
  · cases hk

end Guards

/-- Where a loop that is open goes back to. -/
def Frame.heads : Frame → List Nat
  | .whileLoop head _ | .forLoop head _ _ => [head]
  | .procedure _ | .branch .. | .lastBranch _ => []

theorem Frame.heads_of_while? {f : Frame} {head : Nat} {exit : Option Nat} (h : f.while? = some (head, exit)) :
    f.heads = [head] := by
  cases f <;> cases h
  rfl

theorem Frame.heads_of_for? {f : Frame} {head : Nat} {counter : VarRef} {exit : Option Nat}
    (h : f.for? = some (head, counter, exit)) : f.heads = [head] := by
  cases f <;> cases h
  rfl

/-- Open loops go back to positions up to `n`. -/
def HeadsWithin (n : Nat) (m : Markers Frame) : Prop := ∀ o ∈ m, ∀ head ∈ o.frame.heads, head ≤ n

namespace HeadsWithin

variable {n n' : Nat} {m rest : Markers Frame} {o : OpenMarker Frame} {frame : Frame}

theorem mono (h : HeadsWithin n m) (hle : n ≤ n') : HeadsWithin n' m :=
  fun o ho head hhead => Nat.le_trans (h o ho head hhead) hle

theorem push (h : HeadsWithin n m) (hframe : ∀ head ∈ frame.heads, head ≤ n) (i : Instr) :
    HeadsWithin n (m.push frame i) :=
  List.forall_mem_cons.mpr ⟨hframe, h⟩

theorem tail (h : HeadsWithin n m) (hm : m = o :: rest) : HeadsWithin n rest :=
  fun o' ho' => h o' (hm ▸ List.mem_cons_of_mem o ho')

theorem replace (h : HeadsWithin n m) (frame : Frame) (hframe : ∀ head ∈ frame.heads, head ≤ n) :
    HeadsWithin n (m.replace frame) := by
  cases m with
  | nil => exact h
  | cons o rest => exact List.forall_mem_cons.mpr ⟨hframe, h.tail rfl⟩

theorem top (h : HeadsWithin n m) (hm : m = o :: rest) : ∀ head ∈ o.frame.heads, head ≤ n :=
  h o (hm ▸ List.mem_cons_self)

end HeadsWithin

namespace Lowering

variable {l l' : Lowering} {i : Instr} {done : List Instr}

theorem of_openBranch {b : Nat × List Nat} (h : l.openBranch i = .ok b) :
    ∃ o rest, l.markers = o :: rest ∧ o.frame = .branch b.1 b.2 := by
  obtain ⟨⟨pending, exits⟩, htop, h⟩ := ok_of_bind h
  obtain ⟨o, rest, hm, ho⟩ := Markers.of_top htop
  refine ⟨o, rest, hm, ?_⟩
  cases hf : o.frame with
  | branch p es =>
    rw [hf] at ho
    cases ho
    cases h
    rfl
  | lastBranch es =>
    rw [hf] at ho
    cases ho
    cases h
  | procedure | whileLoop | forLoop =>
    rw [hf] at ho
    cases ho

/-- The guard of a further branch is moved behind the jump that ends the branch before it. -/
theorem of_elseIf (h : l.elseIf i = .ok l') :
    ∃ start pending exits o rest, guardStart l.code 1 l.code.size = some start ∧ l.markers = o :: rest ∧
      o.frame = .branch pending exits ∧
      l'.code = ((({ l with code := l.code.shrink start }.emit (.jump 0) none).patch pending).code ++
        l.code.extract start).push ⟨.jumpIfFalse 0, some i.line⟩ ∧
      l'.markers = { o with frame := .branch (l.code.size + 1) (start :: exits) } :: rest ∧
      l'.procedures = l.procedures ∧ l'.numbers = l.numbers := by
  unfold elseIf at h
  split at h
  · next start hstart =>
    obtain ⟨b, hb, h⟩ := ok_of_bind h
    obtain ⟨o, rest, hm, ho⟩ := of_openBranch hb
    cases h
    refine ⟨start, b.1, b.2, o, rest, hstart, hm, ho, rfl, ?_, rfl, rfl⟩
    have hle := (guardStart_computes hstart).1
    have hsize : start + 1 + (l.code.size - start) = l.code.size + 1 := by omega
    simp [emit, patch, Markers.replace, hm, Nat.min_eq_left hle, hsize]
  · cases h

/-- Jump code in the making renders what was read of its code. -/
structure Rendering (done : List Instr) (l : Lowering) : Prop where
  code : RenderedBy l.procedures done l.code.toList
  entries : ∀ q ∈ l.procedures, q.entry ≤ l.code.size
  heads : HeadsWithin l.code.size l.markers
  numbers : ∀ name number, l.numbers.lookup name = some number → ∃ entry, l.procedures[number]? = some ⟨name, entry⟩

theorem retargets_patch (l : Lowering) (position : Nat) :
    List.Forall₂ (Retargets l.code.size) l.code.toList (l.patch position).code.toList := by
  refine List.forall₂_iff_get.mpr ⟨by simp [patch], fun k hk hk' => ?_⟩
  simp only [List.get_eq_getElem, patch, Array.getElem_toList, Array.getElem_modify]
  split
  · exact .inr ⟨l.code.size, Nat.le_refl _, rfl⟩
  · exact .inl rfl

theorem patchAll_markers (l : Lowering) (positions : List Nat) : (l.patchAll positions).markers = l.markers := by
  rw [patchAll_eq]

theorem movesGuard_of_elseIf (h : l.elseIf i = .ok l') : MovesGuard i.line l.code.toList l'.code.toList := by
  obtain ⟨start, pending, exits, o, rest, hstart, -, -, hcode, -, -, -⟩ := of_elseIf h
  obtain ⟨hle, hsplit, hguard⟩ := guard_split hstart
  generalize hbefore : { l with code := l.code.shrink start } = before at hcode
  have hlist : l.code.toList = before.code.toList ++ (l.code.extract start).toList := by
    rw [← hbefore, ← Array.toList_append, ← hsplit]
  have hlength : (before.emit (.jump 0) none).code.size ≤ l.code.toList.length + 1 := by
    rw [size_emit, hlist, List.length_append, Array.length_toList]
    omega
  have hfront := ((before.emit (.jump 0) none).retargets_patch pending).imp fun _ _ hr => hr.mono hlength
  rw [emit, Array.toList_push] at hfront
  refine ⟨_, _, _, hlist, fun e he => hguard e (Array.mem_def.mpr he), hfront, ?_⟩
  rw [hcode, Array.toList_push, Array.toList_append]
  rfl

theorem of_var {name : String} {v : VarRef} (h : l.var name i = .ok v) : ∃ owner, v = ⟨owner, name⟩ := by
  unfold var at h
  split at h
  · cases h
    exact ⟨none, rfl⟩
  · cases h
    exact ⟨_, rfl⟩
  · cases h

theorem of_procedure {s : Scopes} {name qualified : String} (h : s.procedure name i = .ok qualified) :
    ∃ path, qualified = qualify path name := by
  unfold Scopes.procedure at h
  split at h
  · next path hpath =>
    cases h
    obtain ⟨scope, -, rfl⟩ := Option.map_eq_some_iff.mp hpath
    exact ⟨scope.path, rfl⟩
  · cases h

namespace Rendering

theorem initial : Lowering.initial.Rendering [] :=
  ⟨.nil, fun q hq => by simp [Lowering.initial] at hq, List.forall_mem_nil _, fun _ _ h => by cases h⟩

/-- Scopes do not matter, and of the markers only where open loops go back to. -/
theorem reframe {m : Markers Frame} (h : l.Rendering done) (hm : HeadsWithin l.code.size m) (s : Scopes) :
    Rendering done { l with markers := m, scopes := s } :=
  ⟨h.code, h.entries, hm, h.numbers⟩

theorem mark (h : l.Rendering done) (i : Instr) (hi : i.isExecuted = false) : l.Rendering (done ++ [i]) :=
  ⟨h.code.mark hi, h.entries, h.heads, h.numbers⟩

theorem emit (h : l.Rendering done) (i : Instr) (step : Step) (hr : Renders l.procedures i ⟨step, some i.line⟩)
    (ht : ∀ target ∈ step.targets, target = 0) : (l.emit step (some i.line)).Rendering (done ++ [i]) where
  code := by
    rw [Lowering.emit, Array.toList_push]
    exact h.code.concat hr fun target htarget => ht target htarget ▸ Nat.zero_le _
  entries q hq := by
    rw [size_emit]
    exact Nat.le_succ_of_le (h.entries q hq)
  heads := by
    rw [size_emit]
    exact h.heads.mono (Nat.le_succ _)
  numbers := h.numbers

theorem transfer (h : l.Rendering done) (step : Step) (hs : step.isTransfer = true)
    (ht : ∀ target ∈ step.targets, target ≤ l.code.size) : (l.emit step none).Rendering done where
  code := by
    rw [Lowering.emit, Array.toList_push]
    exact .insert l.code.toList [] (by simpa using h.code) hs (by simpa using ht)
  entries q hq := by
    rw [size_emit]
    exact Nat.le_succ_of_le (h.entries q hq)
  heads := by
    rw [size_emit]
    exact h.heads.mono (Nat.le_succ _)
  numbers := h.numbers

theorem patch (h : l.Rendering done) (position : Nat) : (l.patch position).Rendering done where
  code := h.code.retarget (by simpa using l.retargets_patch position)
  entries := by
    rw [size_patch]
    exact h.entries
  heads := by
    rw [size_patch]
    exact h.heads
  numbers := h.numbers

theorem patchAll (h : l.Rendering done) (positions : List Nat) : (l.patchAll positions).Rendering done := by
  induction positions generalizing l with
  | nil => exact h
  | cons position positions ih => exact ih (h.patch position)

/-- The end of a loop: the step that goes back, and what leaves the loop leads behind it. -/
theorem endLoop {o : OpenMarker Frame} {rest : Markers Frame} {head : Nat} (h : l.Rendering done) (i : Instr)
    (step : Step) (exits : List Nat) (hm : l.markers = o :: rest) (hhead : o.frame.heads = [head])
    (hs : step.isTransfer = true) (ht : step.targets = [head]) (hi : i.isExecuted = false) :
    Rendering (done ++ [i]) { (l.emit step none).patchAll exits with markers := rest } := by
  have hback := (h.transfer step hs (by rw [ht, ← hhead]; exact h.heads.top hm)).patchAll exits
  exact (hback.reframe (hback.heads.tail ((patchAll_markers _ _).trans hm)) _).mark i hi

/-- A procedure that begins behind the jump over its body gets the next number. -/
theorem startProcedure (h : l.Rendering done) (name : String) (hi : i.isExecuted = false) :
    (l.startProcedure name i).Rendering (done ++ [i]) := by
  have hjump := h.transfer (.jump 0) rfl (List.forall_mem_singleton.mpr (Nat.zero_le _))
  have hpush (q : Procedure) (k : Nat) (q' : Procedure) (hk : l.procedures[k]? = some q') :
      (l.procedures.push q)[k]? = some q' := by
    obtain ⟨hlt, rfl⟩ := Array.getElem?_eq_some_iff.mp hk
    rw [Array.getElem?_push_lt hlt]
  refine ⟨(hjump.code.mono (hpush _)).mark hi, fun q hq => ?_, hjump.heads.push (List.forall_mem_nil _) i, ?_⟩
  · rcases Array.mem_push.mp hq with hq | rfl
    · exact hjump.entries q hq
    · exact Nat.le_refl _
  · intro name' number hnumber
    have hlookup : List.lookup name' ((dotted (l.scopes.enter name).path, l.procedures.size) :: l.numbers) =
        some number :=
      hnumber
    rw [List.lookup_cons] at hlookup
    split at hlookup
    · next heq =>
      cases hlookup
      rw [beq_iff_eq.mp heq]
      exact ⟨_, Array.getElem?_push_size⟩
    · obtain ⟨entry, hentry⟩ := h.numbers name' number hlookup
      exact ⟨entry, hpush _ _ _ hentry⟩

theorem elseIf (h : l.Rendering done) (hi : i.op = .elseIf) (hl : l.elseIf i = .ok l') : l'.Rendering (done ++ [i]) := by
  obtain ⟨start, pending, exits, o, rest, -, hm, -, -, hm', hprocedures, hnumbers⟩ := of_elseIf hl
  obtain ⟨front, guard, front', hcode, -, hfront, hcode'⟩ := movesGuard_of_elseIf hl
  have hlength : (front ++ ⟨.jump 0, none⟩ :: guard).length = l.code.toList.length + 1 := by
    simp only [hcode, List.length_append, List.length_cons, Nat.add_assoc]
  have hjump : RenderedBy l.procedures done (front ++ ⟨.jump 0, none⟩ :: guard) :=
    .insert front guard (hcode ▸ h.code) rfl (List.forall_mem_singleton.mpr (Nat.zero_le _))
  have hmoved : RenderedBy l.procedures done (front' ++ guard) := by
    refine hjump.retarget ?_
    rw [hlength, List.append_cons]
    exact List.rel_append hfront (List.forall₂_same.mpr fun e _ => .inl rfl)
  have hown : RenderedBy l.procedures (done ++ [i]) l'.code.toList := by
    rw [hcode']
    exact hmoved.concat ⟨rfl, by rw [hi]; exact ⟨0, rfl⟩⟩ (List.forall_mem_singleton.mpr (Nat.zero_le _))
  have hsize : l.code.size ≤ l'.code.size := by
    have hfront' := hfront.length_eq
    rw [← Array.length_toList, ← Array.length_toList, hcode, hcode']
    simp only [List.length_append, List.length_singleton] at hfront' ⊢
    omega
  refine ⟨hprocedures ▸ hown, ?_, ?_, ?_⟩
  · rw [hprocedures]
    exact fun q hq => Nat.le_trans (h.entries q hq) hsize
  · rw [hm']
    exact List.forall_mem_cons.mpr ⟨List.forall_mem_nil _, (h.heads.tail hm).mono hsize⟩
  · rw [hprocedures, hnumbers]
    exact h.numbers

theorem instr (h : l.Rendering done) (hl : l.instr i = .ok l') : l'.Rendering (done ++ [i]) := by
  obtain ⟨op, line⟩ := i
  cases op with
  | declare name | const name value =>
    obtain ⟨v, hv, hl⟩ := ok_of_bind hl
    cases hl
    obtain ⟨owner, rfl⟩ := of_var hv
    exact (h.reframe h.heads (l.scopes.declare name)).emit _ _ ⟨rfl, owner, rfl⟩ (List.forall_mem_nil _)
  | load name | store name | read name =>
    obtain ⟨v, hv, hl⟩ := ok_of_bind hl
    cases hl
    obtain ⟨owner, rfl⟩ := of_var hv
    exact h.emit _ _ ⟨rfl, owner, rfl⟩ (List.forall_mem_nil _)
  | push value | oper op | write =>
    cases hl
    exact h.emit _ _ ⟨rfl, rfl⟩ (List.forall_mem_nil _)
  | call name =>
    obtain ⟨qualified, hname, hl⟩ := ok_of_bind hl
    split at hl
    · next number hnumber =>
      cases hl
      obtain ⟨path, rfl⟩ := of_procedure hname
      obtain ⟨entry, hentry⟩ := h.numbers _ _ hnumber
      exact h.emit _ _ ⟨rfl, number, path, entry, rfl, hentry⟩ (List.forall_mem_nil _)
    · cases hl
  | procedureStart name =>
    cases hl
    exact h.startProcedure name rfl
  | procedureEnd name =>
    obtain ⟨r, hpop, hl⟩ := ok_of_bind hl
    cases hl
    obtain ⟨o, hm, -⟩ := Markers.of_pop hpop
    have hleave := (h.transfer .leave rfl (List.forall_mem_nil _)).patch r.1
    exact (hleave.reframe (hleave.heads.tail hm) _).mark _ rfl
  | ifMark =>
    cases hl
    have htest := h.emit ⟨.ifMark, line⟩ (.jumpIfFalse 0) ⟨rfl, 0, rfl⟩ (List.forall_mem_singleton.mpr rfl)
    exact htest.reframe (htest.heads.push (List.forall_mem_nil _) ⟨.ifMark, line⟩) l.scopes
  | elseIf => exact h.elseIf rfl hl
  | elseMark =>
    obtain ⟨b, hb, hl⟩ := ok_of_bind hl
    cases hl
    have hjump := (h.transfer (.jump 0) rfl (List.forall_mem_singleton.mpr (Nat.zero_le _))).patch b.1
    have hheads := hjump.heads.replace (.lastBranch (l.code.size :: b.2)) (List.forall_mem_nil _)
    exact (hjump.reframe hheads l.scopes).mark _ rfl
  | endIf =>
    obtain ⟨r, hpop, hl⟩ := ok_of_bind hl
    cases hl
    obtain ⟨o, hm, -⟩ := Markers.of_pop hpop
    have hexits := h.patchAll (r.1.1.toList ++ r.1.2)
    exact (hexits.reframe (hexits.heads.tail ((l.patchAll_markers _).trans hm)) _).mark _ rfl
  | whileMark =>
    cases hl
    have hhead : ∀ head ∈ (Frame.whileLoop l.code.size none).heads, head ≤ l.code.size :=
      fun head hhead => Nat.le_of_eq (List.mem_singleton.mp hhead)
    exact (h.reframe (h.heads.push hhead ⟨.whileMark, line⟩) l.scopes).mark _ rfl
  | doMark =>
    obtain ⟨r, htop, hl⟩ := ok_of_bind hl
    cases hl
    obtain ⟨o, rest, hm, ho⟩ := Markers.of_top htop
    have htest := h.emit ⟨.doMark, line⟩ (.jumpIfFalse 0) ⟨rfl, 0, rfl⟩ (List.forall_mem_singleton.mpr rfl)
    have hhead := htest.heads.top hm
    rw [Frame.heads_of_while? ho] at hhead
    exact htest.reframe (htest.heads.replace (.whileLoop r.1 (some l.code.size)) hhead) l.scopes
  | endWhile =>
    obtain ⟨r, hpop, hl⟩ := ok_of_bind hl
    cases hl
    obtain ⟨o, hm, ho⟩ := Markers.of_pop hpop
    exact h.endLoop ⟨.endWhile, line⟩ (.jump r.1.1) r.1.2.toList hm (Frame.heads_of_while? ho) rfl rfl rfl
  | forInit name =>
    obtain ⟨v, hv, hl⟩ := ok_of_bind hl
    cases hl
    obtain ⟨owner, rfl⟩ := of_var hv
    have hstore := h.emit ⟨.forInit name, line⟩ (.store ⟨owner, name⟩) ⟨rfl, owner, rfl⟩ (List.forall_mem_nil _)
    refine hstore.reframe (hstore.heads.push (fun head hhead => ?_) ⟨.forInit name, line⟩) l.scopes
    exact Nat.le_of_eq (List.mem_singleton.mp hhead)
  | forTo name =>
    obtain ⟨r, htop, hl⟩ := ok_of_bind hl
    cases hl
    obtain ⟨o, rest, hm, ho⟩ := Markers.of_top htop
    have htest := h.emit ⟨.forTo name, line⟩ (.forTest r.2.1 0) ⟨rfl, r.2.1, 0, rfl⟩ (List.forall_mem_singleton.mpr rfl)
    have hhead := htest.heads.top hm
    rw [Frame.heads_of_for? ho] at hhead
    exact htest.reframe (htest.heads.replace (.forLoop r.1 r.2.1 (some l.code.size)) hhead) l.scopes
  | endFor name =>
    obtain ⟨r, hpop, hl⟩ := ok_of_bind hl
    cases hl
    obtain ⟨o, hm, ho⟩ := Markers.of_pop hpop
    exact h.endLoop ⟨.endFor name, line⟩ (.forStep r.1.2.1 r.1.1) r.1.2.2.toList hm (Frame.heads_of_for? ho) rfl rfl rfl

theorem run {code : List Instr} (h : l.Rendering done) (hl : code.foldlM Lowering.instr l = .ok l') :
    l'.Rendering (done ++ code) := by
  induction code generalizing l done with
  | nil =>
    cases hl
    rw [List.append_nil]
    exact h
  | cons i code ih =>
    obtain ⟨l1, hi, hl⟩ := ok_of_bind hl
    rw [List.append_cons]
    exact ih (h.instr hi) hl

end Rendering

end Lowering

/-- Jump code of any code that has it. The steps with a line are the instructions that are executed, one step each, in
their order and with their lines; all others are jumps, returns and steps of counting loops. No step and no procedure
leads behind the end of the code. A further branch moves its guard as a whole and changes nothing else but targets. -/
theorem JumpCode.ofCode_renders {code : List Instr} {J : JumpCode} (h : JumpCode.ofCode code = .ok J) :
    List.Forall₂ (Renders J.procedures) (code.filter Instr.isExecuted) (J.code.toList.filter Exec.isLined) ∧
    (∀ e ∈ J.code, e.line = none ↔ e.step.isTransfer = true) ∧
    (∀ e ∈ J.code, ∀ target ∈ e.step.targets, target ≤ J.code.size) ∧
    (∀ q ∈ J.procedures, q.entry ≤ J.code.size) ∧
    ∀ before i behind, code = before ++ i :: behind → i.op = .elseIf →
      ∃ l l', before.foldlM Lowering.instr .initial = .ok l ∧ l.instr i = .ok l' ∧
        MovesGuard i.line l.code.toList l'.code.toList := by
  obtain ⟨l, hl, h⟩ := ok_of_bind h
  obtain ⟨u, -, h⟩ := ok_of_bind h
  cases h
  have hrendering := Lowering.Rendering.initial.run hl
  rw [List.nil_append] at hrendering
  refine ⟨hrendering.code.steps, fun e he => hrendering.code.transfers e (Array.mem_def.mp he), ?_,
    hrendering.entries, ?_⟩
  · exact fun e he target ht => hrendering.code.targets e (Array.mem_def.mp he) target ht
  · rintro before i behind rfl hi
    rw [List.foldlM_append] at hl
    obtain ⟨l1, hbefore, hl⟩ := ok_of_bind hl
    obtain ⟨l2, hinstr, -⟩ := ok_of_bind hl
    have helse : l1.elseIf i = .ok l2 := by
      rw [Lowering.instr, hi] at hinstr
      exact hinstr
    exact ⟨l1, l2, hbefore, hinstr, Lowering.movesGuard_of_elseIf helse⟩

/-- A branch without statements whose guard is moved behind the jump that ends the branch before it. -/
theorem JumpCode.ofCode_renders_guard : ∃ J,
    JumpCode.ofCode [⟨.push 0, 1⟩, ⟨.ifMark, 1⟩, ⟨.push 7, 2⟩, ⟨.write, 2⟩, ⟨.push 1, 3⟩, ⟨.elseIf, 3⟩, ⟨.endIf, 4⟩] =
        .ok J ∧
      J.code = #[⟨.push 0, some 1⟩, ⟨.jumpIfFalse 5, some 1⟩, ⟨.push 7, some 2⟩, ⟨.write, some 2⟩, ⟨.jump 7, none⟩,
        ⟨.push 1, some 3⟩, ⟨.jumpIfFalse 7, some 3⟩] ∧
      List.Forall₂ (Renders J.procedures)
        [⟨.push 0, 1⟩, ⟨.ifMark, 1⟩, ⟨.push 7, 2⟩, ⟨.write, 2⟩, ⟨.push 1, 3⟩, ⟨.elseIf, 3⟩]
        (J.code.toList.filter Exec.isLined) := by
  obtain ⟨J, hJ, hcode⟩ : ∃ J,
      JumpCode.ofCode [⟨.push 0, 1⟩, ⟨.ifMark, 1⟩, ⟨.push 7, 2⟩, ⟨.write, 2⟩, ⟨.push 1, 3⟩, ⟨.elseIf, 3⟩, ⟨.endIf, 4⟩] =
          .ok J ∧
        J.code = #[⟨.push 0, some 1⟩, ⟨.jumpIfFalse 5, some 1⟩, ⟨.push 7, some 2⟩, ⟨.write, some 2⟩, ⟨.jump 7, none⟩,
          ⟨.push 1, some 3⟩, ⟨.jumpIfFalse 7, some 3⟩] := ⟨_, rfl, rfl⟩
  exact ⟨J, hJ, hcode, (JumpCode.ofCode_renders hJ).1⟩

end Replay

end PLZero
