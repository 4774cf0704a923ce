import PLZero.Proofs.ModuleText
import PLZero.Proofs.Printed
import PLZero.StackModule.Run

/-! Runs of stack modules that are printed from trees: one equation for each kind of code, and what a
function does with its saved globals before and behind its body. -/

namespace PLZero.StackModule

open Sexp

/-- The only quotient of words that is no word. -/
theorem tdiv_eq_iff {l r : Int32} :
    l.toInt.tdiv r.toInt = 2147483648 ↔ l = Int32.minValue ∧ r = -1 := by
  constructor
  · intro h
    have hlow := l.le_toInt
    have hhigh := l.toInt_lt
    have hquotient : (l.toInt.tdiv r.toInt).natAbs = l.toInt.natAbs / r.toInt.natAbs :=
      Int.natAbs_tdiv ..
    rw [h] at hquotient
    -- a divisor of two or more leaves at most half
    have hr : r.toInt.natAbs < 2 := by
      by_contra hr
      have hhalf : l.toInt.natAbs / r.toInt.natAbs ≤ l.toInt.natAbs / 2 :=
        Nat.div_le_div_left (by omega) (by decide)
      omega
    rcases (show r.toInt = 0 ∨ r.toInt = 1 ∨ r.toInt = -1 by omega) with hr | hr | hr
    · rw [hr, Int.tdiv_zero] at h
      omega
    · rw [hr, Int.tdiv_one] at h
      omega
    · rw [hr, Int.tdiv_neg, Int.tdiv_one] at h
      refine ⟨Int32.toInt_inj.mp ?_, Int32.toInt_inj.mp hr⟩
      rw [Int32.toInt_minValue]
      omega
  · intro h
    obtain ⟨rfl, rfl⟩ := h
    decide

theorem operate_eq (op : BinOp) (l r : Int32) :
    operate op l r = if op = .div ∧ l = Int32.minValue ∧ r = -1 then none else op.apply l r := by
  cases op with
  | div =>
    by_cases hr : r = 0
    · simp [operate, BinOp.apply, hr]
    · simp [operate, BinOp.apply, hr]
  | add | sub | mul | lt | le | eq | ne | gt | ge => rfl

theorem operate_div (l r : Int32) :
    Sexp.operate "i32.div_s" l r = (operate .div l r).elim .trap .value := by
  have hzero : r.toInt = 0 ↔ r = 0 := Int32.toInt_inj (y := 0)
  have hquotient : Int32.ofInt (l.toInt.tdiv r.toInt) = l / r := by
    rw [Int32.ofInt_tdiv l.minValue_le_toInt l.toInt_le r.minValue_le_toInt r.toInt_le,
      Int32.ofInt_toInt, Int32.ofInt_toInt]
  change (if r.toInt = 0 ∨ l.toInt.tdiv r.toInt = 2147483648 then none
    else some (l.toInt.tdiv r.toInt)).elim Ending.trap (fun v => .value (.ofInt v)) = _
  rw [operate_eq, BinOp.apply]
  simp only [tdiv_eq_iff, hzero, true_and]
  by_cases hr : r = 0
  · simp [hr]
  · by_cases hover : l = Int32.minValue ∧ r = -1
    · simp [hover]
    · simp [hr, hover, hquotient]

/-- The instruction of an operator does what the operator does, but for one division. -/
theorem operate_opName (op : BinOp) (l r : Int32) :
    Sexp.operate (opName op) l r = (operate op l r).elim .trap .value := by
  have htruth (P : Prop) [Decidable P] :
      Int32.ofInt (if P then 1 else 0) = BinOp.truth (decide P) := by
    by_cases h : P <;> simp [h, BinOp.truth]
  cases op with
  | add | sub | mul =>
    simp [opName, Sexp.operate, instructions, List.lookup_cons, operate, BinOp.apply, Int32.ofInt_add,
      Int32.ofInt_sub, Int32.ofInt_mul, Int32.ofInt_toInt]
  | div => exact operate_div l r
  | lt | le | eq | ne | gt | ge =>
    refine (congrArg Ending.value (htruth _)).trans ?_
    simp [operate, BinOp.apply, Int32.lt_iff_toInt_lt, Int32.le_iff_toInt_le, ← Int32.toInt_inj]

theorem eval_const (env : Env) (v : Int32) : (const v).eval env = .value v := by
  simp [const, Sexp.eval, Text.readWord_ofWord]

theorem eval_binary (env : Env) (op : BinOp) (x y : Sexp) :
    (Sexp.list [.word (opName op), x, y]).eval env =
      (x.eval env).andThen fun l => (y.eval env).andThen fun r =>
        (operate op l r).elim .trap .value := by
  simp only [← operate_opName]
  cases op <;> rfl

namespace State

def get (s : State) (global : String) : Int32 := s.globals.getD ("$" ++ global) 0

def set (s : State) (global : String) (v : Int32) : State := s.setGlobal ("$" ++ global) v

theorem get_set (s : State) (global other : String) (v : Int32) :
    (s.set global v).get other = if global = other then v else s.get other := by
  simp [set, setGlobal, get, Std.ExtTreeMap.getD_insert]

end State

namespace Outcome

def andThen (o : Outcome) (k : State → Outcome) : Outcome :=
  match o with
  | next s => k s
  | o => o

theorem andThen_next (o : Outcome) : o.andThen .next = o := by
  cases o <;> rfl

end Outcome

section

variable {c : Calls} {turns : Nat}

theorem execAll_append (xs ys : List Sexp) (s : State) :
    execAll c turns (xs ++ ys) s = (execAll c turns xs s).andThen (execAll c turns ys) := by
  induction xs generalizing s with
  | nil => rfl
  | cons x xs ih =>
    rw [List.cons_append, execAll, execAll]
    cases exec c turns x s with
    | next s' => exact ih s'
    | branch | trap | invalid | exhausted => rfl

namespace Code

def exec (c : Calls) (turns : Nat) (code : Code) : State → Outcome :=
  StackModule.exec c turns code.sexp

def execAll (c : Calls) (turns : Nat) (codes : List Code) : State → Outcome :=
  StackModule.execAll c turns (Code.sexpAll codes)

theorem execAll_nil (s : State) : Code.execAll c turns [] s = .next s := rfl

theorem execAll_cons (code : Code) (rest : List Code) (s : State) :
    Code.execAll c turns (code :: rest) s =
      (code.exec c turns s).andThen (Code.execAll c turns rest) := by
  simp only [Code.execAll, Code.sexpAll, StackModule.execAll, Code.exec]
  cases StackModule.exec c turns code.sexp s <;> rfl

theorem execAll_append (a b : List Code) (s : State) :
    Code.execAll c turns (a ++ b) s =
      (Code.execAll c turns a s).andThen (Code.execAll c turns b) := by
  simp only [Code.execAll, Code.sexpAll_eq_map, List.map_append, StackModule.execAll_append]

theorem execAll_singleton (code : Code) (s : State) :
    Code.execAll c turns [code] s = code.exec c turns s := by
  rw [execAll_cons]
  exact Outcome.andThen_next _

def execElse (c : Calls) (turns : Nat) (o : Option (List Code)) (s : State) : Outcome :=
  match o with
  | some body => Code.execAll c turns body s
  | none => .next s

variable (global : String) (value : Folded) (label : Label) (body : List Code) (s : State)

theorem exec_set : (Code.set global value).exec c turns s =
    withValue ((exprSexp value).eval (s.env c.value)) fun v => .next (s.set global v) := rfl

theorem exec_read : (Code.read global).exec c turns s =
    withValue (c.value Hook.read.id) fun v => .next (s.set global v) := rfl

theorem exec_write : (Code.write value).exec c turns s =
    withValue ((exprSexp value).eval (s.env c.value)) fun v => c.run Hook.write.id [v] s := rfl

theorem exec_call : (Code.call global).exec c turns s = c.run ("$" ++ global) [] s := rfl

theorem exec_ifElse (o : Option (List Code)) : (Code.ifElse value body o).exec c turns s =
    withValue ((exprSexp value).eval (s.env c.value)) fun v =>
      if v ≠ 0 then Code.execAll c turns body s else Code.execElse c turns o s := by
  cases o <;> rfl

theorem exec_block : (Code.block label body).exec c turns s =
    (Code.execAll c turns body s).leaving label.text := rfl

theorem exec_loop : (Code.loop label body).exec c turns s =
    goAround label.text (Code.execAll c turns body) turns s := rfl

theorem exec_branch : (Code.branch label).exec c turns s = .branch label.text s := rfl

theorem exec_branchIfZero : (Code.branchIfZero label value).exec c turns s =
    withValue ((exprSexp value).eval (s.env c.value)) fun v =>
      if v = 0 then .branch label.text s else .next s := by
  change withValue (((exprSexp value).eval (s.env c.value)).andThen fun v =>
    Sexp.operate (opName .eq) v 0) _ = _
  simp only [operate_opName]
  cases (exprSexp value).eval (s.env c.value) with
  | value v => by_cases hv : v = 0 <;> simp [Ending.andThen, operate, BinOp.apply, BinOp.truth, hv, withValue]
  | trap | invalid => rfl

theorem exec_branchUnlessBelow (bound : Folded) :
    (Code.branchUnlessBelow label global bound).exec c turns s =
      withValue ((exprSexp bound).eval (s.env c.value)) fun v =>
        if v ≤ s.get global then .branch label.text s else .next s := by
  change withValue (((exprSexp bound).eval (s.env c.value)).andThen fun v =>
    Sexp.operate (opName .ge) (s.get global) v) _ = _
  simp only [operate_opName]
  cases (exprSexp bound).eval (s.env c.value) with
  | value v =>
    by_cases hv : v ≤ s.get global <;>
      simp [Ending.andThen, operate, BinOp.apply, BinOp.truth, hv, withValue]
  | trap | invalid => rfl

theorem exec_increment : (Code.increment global).exec c turns s =
    .next (s.set global (s.get global + 1)) := by
  have hsum : (Sexp.list [.word "i32.add", StackModule.get global, const 1]).eval (s.env c.value) =
      .value (s.get global + 1) := by
    change (Sexp.list [.word (opName .add), StackModule.get global, const 1]).eval _ = _
    rw [eval_binary, eval_const]
    rfl
  change withValue (Sexp.eval _ (.list [.word "i32.add", StackModule.get global, const 1]))
    (fun v => .next (s.set global v)) = _
  rw [hsum]
  rfl

end Code

end

/-- The state behind saving and clearing globals, the first of them in the local with this number. -/
def savedFrom : Nat → List String → State → State
  | _, [], s => s
  | n, g :: gs, s => savedFrom (n + 1) gs ((s.setLocal (savedLocal n) (s.get g)).set g 0)

def restoredFrom : Nat → List String → State → State
  | _, [], s => s
  | n, g :: gs, s =>
    let t := restoredFrom (n + 1) gs s
    t.set g (t.locals.getD (savedLocal n) 0)

section

variable {c : Calls} {turns : Nat} {s s' : State} {gs : List String} {n : Nat}

theorem execAll_saving (n : Nat) (gs : List String) (s : State) :
    execAll c turns (saving (gs.zipIdx n)) s = .next (savedFrom n gs s) := by
  induction gs generalizing n s with
  | nil => rfl
  | cons g gs ih => exact ih (n + 1) _

theorem execAll_restoring (n : Nat) (gs : List String) (s : State) :
    execAll c turns (restoring (gs.zipIdx n)) s = .next (restoredFrom n gs s) := by
  induction gs generalizing n s with
  | nil => rfl
  | cons g gs ih =>
    have hlast : restoring ((g :: gs).zipIdx n) = restoring (gs.zipIdx (n + 1)) ++
        [StackModule.set g (.list [.word "local.get", .word (savedLocal n)])] := by
      simp [restoring, List.zipIdx_cons]
    rw [hlast, execAll_append, ih]
    rfl

theorem savedFrom_get (g : String) : (savedFrom n gs s).get g = if g ∈ gs then 0 else s.get g := by
  induction gs generalizing n s with
  | nil => rfl
  | cons h gs ih =>
    rw [savedFrom, ih, State.get_set]
    by_cases hg : g ∈ gs
    · simp [hg]
    · by_cases heq : h = g
      · simp [heq]
      · simp [hg, heq, Ne.symm heq, State.setLocal, State.get]

theorem savedFrom_output : (savedFrom n gs s).output = s.output := by
  induction gs generalizing n s with
  | nil => rfl
  | cons g gs ih => exact ih

theorem restoredFrom_frame :
    (restoredFrom n gs s).output = s.output ∧ (restoredFrom n gs s).locals = s.locals := by
  induction gs generalizing n with
  | nil => exact ⟨rfl, rfl⟩
  | cons g gs ih => exact ih

/-- Locals with smaller numbers are kept. -/
theorem savedFrom_locals {m : Nat} (h : m < n) :
    (savedFrom n gs s).locals.getD (savedLocal m) 0 = s.locals.getD (savedLocal m) 0 := by
  induction gs generalizing n s with
  | nil => rfl
  | cons g gs ih =>
    have hne : savedLocal n ≠ savedLocal m := fun heq => absurd (savedLocal_injective heq) (by omega)
    rw [savedFrom, ih (Nat.lt_succ_of_lt h)]
    simp [State.set, State.setGlobal, State.setLocal, Std.ExtTreeMap.getD_insert, hne]

/-- What was saved is put back, as long as the locals are kept; if a global is saved twice, the first time
counts, which is put back last. -/
theorem restoredFrom_get (h : s'.locals = (savedFrom n gs s).locals) (g : String) :
    (restoredFrom n gs s').get g = if g ∈ gs then s.get g else s'.get g := by
  induction gs generalizing n s with
  | nil => rfl
  | cons f gs ih =>
    have hlocal : (restoredFrom (n + 1) gs s').locals.getD (savedLocal n) 0 = s.get f := by
      rw [restoredFrom_frame.2, h, savedFrom, savedFrom_locals (Nat.lt_succ_self n)]
      simp [State.set, State.setGlobal, State.setLocal]
    rw [restoredFrom, hlocal, State.get_set, ih h]
    by_cases heq : f = g
    · simp [heq]
    · by_cases hg : g ∈ gs
      · rw [if_neg heq, if_pos hg, if_pos (List.mem_cons_of_mem f hg), State.get_set, if_neg heq]
        rfl
      · simp [heq, hg, Ne.symm heq]

end

/-- The locals that a function saves its globals in. -/
def slots (saved : List String) : List String := saved.zipIdx.map fun x => savedLocal x.2

/-- The state in which the body of a function starts that is called in the state `s`. -/
def cleared (saved : List String) (s : State) : State := savedFrom 0 saved (s.enter (slots saved))

/-- The state behind a call made in the state `s` whose body ends in `s'`. -/
def restored (saved : List String) (s s' : State) : State :=
  { restoredFrom 0 saved s' with locals := s.locals }

section

variable {saved : List String} {s s' : State}

theorem cleared_get (g : String) : (cleared saved s).get g = if g ∈ saved then 0 else s.get g :=
  savedFrom_get g

theorem cleared_output : (cleared saved s).output = s.output := savedFrom_output

theorem restored_get (h : s'.locals = (cleared saved s).locals) (g : String) :
    (restored saved s s').get g = if g ∈ saved then s.get g else s'.get g :=
  restoredFrom_get h g

theorem restored_output : (restored saved s s').output = s'.output := restoredFrom_frame.1

theorem restored_locals : (restored saved s s').locals = s.locals := rfl

end

/-- A function as the text of a module has it. -/
def Function.callee (f : Function) : Callee :=
  .function (slots f.saved) (saving f.saved.zipIdx ++ Code.sexpAll f.body ++ restoring f.saved.zipIdx)

/-- The hooks and functions of a module can be called. -/
structure Provides (callees : List (String × Callee)) (F : List Function) : Prop where
  read : callees.lookup Hook.read.id = some .read
  write : callees.lookup Hook.write.id = some .write
  function : ∀ f ∈ F, callees.lookup ("$" ++ f.id) = some f.callee

section

variable {ρ : Type} {callees : List (String × Callee)} {meter : Meter ρ} {readValue : Int32}
  {turns depth : Nat} {r : ρ}

namespace Provides

variable {F : List Function} {function : ρ → List String → List Sexp → State → Outcome}

theorem value_read (h : Provides callees F) :
    (calls callees meter readValue r function).value Hook.read.id =
      (meter.enter Hook.read.id r).elim .trap fun _ => .value readValue := by
  simp only [calls, h.read]

theorem run_write (h : Provides callees F) (v : Int32) (s : State) :
    (calls callees meter readValue r function).run Hook.write.id [v] s =
      (meter.enter Hook.write.id r).elim .trap fun _ => .next (s.write v) := by
  simp only [calls, h.write]

theorem run_function (h : Provides callees F) {f : Function} (hf : f ∈ F) (s : State) :
    (calls callees meter readValue r function).run ("$" ++ f.id) [] s =
      (meter.enter ("$" ++ f.id) r).elim .trap fun r => function r (slots f.saved)
        (saving f.saved.zipIdx ++ Code.sexpAll f.body ++ restoring f.saved.zipIdx) s := by
  simp only [calls, h.function f hf, Function.callee]

end Provides

/-- A call saves and clears, runs the body, and puts back what was saved. -/
theorem callFunction_succ (saved : List String) (body : List Code) (s : State) :
    callFunction callees meter readValue turns (depth + 1) r (slots saved)
        (saving saved.zipIdx ++ Code.sexpAll body ++ restoring saved.zipIdx) s =
      ((Code.execAll (calls callees meter readValue r
          (callFunction callees meter readValue turns depth)) turns body (cleared saved s)).andThen
        fun s' => .next (restoredFrom 0 saved s')).returning s := by
  rw [callFunction, execAll_append, execAll_append, execAll_saving]
  congr 1
  simp only [Outcome.andThen, execAll_restoring]
  rfl

end

section

variable {m : StackModule}

theorem callees_fields (m : StackModule) : m.fields.filterMap callee? =
    [(Hook.read.id, .read), (Hook.write.id, .write)] ++
      m.functions.map (fun f => ("$" ++ f.id, f.callee)) ++
      [("$" ++ entryId, (⟨entryId, [], m.entry⟩ : Function).callee)] := by
  have hglobals : (m.globals.map Global.field).filterMap callee? = [] := by
    simp [List.filterMap_map, Function.comp_def, Global.field, callee?]
  have hfunctions : (m.functions.map fun f => functionField f.id [] f.saved f.body).filterMap callee? =
      m.functions.map fun f => ("$" ++ f.id, f.callee) := by
    simp only [List.filterMap_map, Function.comp_def, functionField, callee?]
    exact congrFun List.filterMap_eq_map _
  rw [fields, List.filterMap_append, List.filterMap_append, List.filterMap_append, hglobals,
    hfunctions, List.append_nil]
  rfl

theorem IsDotted.ne_hook {name : String} (h : IsDotted name) (hook : Hook) : "$" ++ name ≠ hook.id := by
  intro heq
  have hname : name = "__" ++ hook.name := by
    apply (String.append_right_inj "$").mp
    rw [heq, Hook.id, ← String.append_assoc]
    rfl
  rcases h '_' (by simp [hname]) with h | h <;> revert h <;> decide

/-- The functions of a well-formed module can be called by name. -/
theorem WellFormed.provides (h : m.WellFormed) :
    Provides (m.fields.filterMap callee?) m.functions := by
  rw [callees_fields]
  refine ⟨by simp, by simp [List.lookup_cons, Hook.id, Hook.read, Hook.write], fun f hf => ?_⟩
  obtain ⟨before, after, hsplit⟩ := List.append_of_mem hf
  refine List.lookup_eq_some_iff.mpr ⟨[(Hook.read.id, .read), (Hook.write.id, .write)] ++
    before.map (fun f => ("$" ++ f.id, f.callee)), after.map (fun f => ("$" ++ f.id, f.callee)) ++
      [("$" ++ entryId, (⟨entryId, [], m.entry⟩ : Function).callee)], by simp [hsplit], ?_⟩
  have hnodup := h.functions_nodup
  rw [hsplit, List.map_append, List.map_cons] at hnodup
  intro x hx
  simp only [bne_iff_ne]
  rcases List.mem_append.mp hx with hx | hx
  · rcases List.mem_cons.mp hx with rfl | hx
    · exact (h.functions f hf).1.ne_hook _
    · obtain rfl := List.mem_singleton.mp hx
      exact (h.functions f hf).1.ne_hook _
  · obtain ⟨g, hg, rfl⟩ := List.mem_map.mp hx
    intro heq
    have hid : g.id = f.id := ((String.append_right_inj "$").mp heq).symm
    exact (List.nodup_append.mp hnodup).2.2 g.id (List.mem_map_of_mem hg) f.id (by simp) hid

theorem findSome?_entry (m : StackModule) :
    m.fields.findSome? entry? = some ("$" ++ entryId, [], Code.sexpAll m.entry) := by
  have hnone {fs : List Field} (h : ∀ f ∈ fs, entry? f = none) : fs.findSome? entry? = none :=
    List.findSome?_eq_none_iff.mpr h
  rw [fields, List.findSome?_append, hnone]
  · simp [functionField, entry?, saving, restoring]
  · intro f hf
    simp only [List.mem_append, List.mem_map] at hf
    rcases hf with (⟨_, -, rfl⟩ | ⟨_, -, rfl⟩) | ⟨_, -, rfl⟩
    · rfl
    · rfl
    · simp [functionField, entry?]

/-- Before the run constants have their values, and variables are zero. -/
theorem cells_fields (m : StackModule) : m.fields.filterMap cell? =
    m.globals.map fun g => ("$" ++ g.id, g.constant.getD 0) := by
  have hnone {fs : List Field} (h : ∀ f ∈ fs, cell? f = none) : fs.filterMap cell? = [] :=
    List.filterMap_eq_nil_iff.mpr h
  have hglobals : (m.globals.map Global.field).filterMap cell? =
      m.globals.map fun g => ("$" ++ g.id, g.constant.getD 0) := by
    simp only [List.filterMap_map, Function.comp_def, Global.field, cell?, eval_const]
    exact congrFun List.filterMap_eq_map _
  rw [fields, List.filterMap_append, List.filterMap_append, List.filterMap_append, hglobals, hnone,
    hnone, hnone]
  · simp
  · simp [functionField, cell?]
  · simp [functionField, cell?]
  · simp [cell?]

theorem run_fields {ρ : Type} (m : StackModule) (meter : Meter ρ) (readValue : Int32)
    (turns depth : Nat) : run m.fields meter readValue turns depth =
      (meter.enter ("$" ++ entryId) meter.start).elim .trap fun r =>
        (Code.execAll (calls (m.fields.filterMap callee?) meter readValue r
            (callFunction (m.fields.filterMap callee?) meter readValue turns depth)) turns m.entry
          ((initialState m.fields).enter [])).returning (initialState m.fields) := by
  rw [run, findSome?_entry]
  rfl

end

end PLZero.StackModule
