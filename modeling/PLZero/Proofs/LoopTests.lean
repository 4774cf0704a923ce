import PLZero.Proofs.LinedSteps
import PLZero.Proofs.TargetConstructs
import Mathlib.Data.List.Flatten
import Mathlib.Data.List.Perm.Basic
import Mathlib.Logic.Function.Basic

/-! The tests of loops. Whoever reads code checks that a `DO` or `FOR_TO` stands directly inside its loop, but not how
many of them a loop has. In jump code the last test of a loop leads behind it; one that another test follows keeps the
target that it was emitted with, and a loop without test is never left. -/

namespace PLZero

/-- A test is known by its name and its line. -/
abbrev TestMark := String × Option Nat

def Instr.test? (i : Instr) : Option TestMark :=
  match i.op with
  | .ifMark | .elseIf | .doMark => some ("JUMP_IF_FALSE", some i.line)
  | .forTo _ => some ("FOR_TO", some i.line)
  | _ => none

def ControlKind.isLoop : ControlKind → Bool
  | .whileLoop | .forLoop => true
  | .procedure | .conditional => false

def Instr.opensLoop (i : Instr) : Bool :=
  match i.op.role with
  | .opens k => k.isLoop
  | _ => false

theorem Instr.opensLoop_eq {i : Instr} {k : ControlKind} (h : i.op.role = .opens k) : i.opensLoop = k.isLoop := by
  simp only [opensLoop, h]

/-- The tests of a loop that another test of it follows. -/
def overtaken (start : Instr) (middles : List Instr) : List Instr :=
  if start.opensLoop then middles.dropLast else []

namespace Construct

def overtaken (c : Construct) : List Instr := PLZero.overtaken c.start c.middles

def TestedOnce (c : Construct) : Prop := c.start.opensLoop = true → c.middles.length = 1

instance (c : Construct) : Decidable c.TestedOnce := inferInstanceAs (Decidable (_ → _))

theorem TestedOnce.overtaken {c : Construct} (h : c.TestedOnce) : c.overtaken = [] := by
  unfold Construct.overtaken PLZero.overtaken
  split
  · next hloop => exact List.eq_nil_of_length_eq_zero (by simp [h hloop])
  · rfl

end Construct

def MarkerRun.overtaken (r : MarkerRun) : List Instr :=
  r.closed.flatMap Construct.overtaken ++ r.markers.flatMap fun o => PLZero.overtaken o.frame.start o.frame.middles

namespace Replay

def Exec.test? (e : Exec) : Option TestMark :=
  match e.step with
  | .jumpIfFalse _ | .forTest .. => some (e.step.name, e.line)
  | _ => none

/-- Tests jump forward, so a target of zero was never set. -/
def Step.isUnset : Step → Bool
  | .jumpIfFalse 0 | .forTest _ 0 => true
  | _ => false

def Exec.unset? (e : Exec) : Option TestMark := if e.step.isUnset then e.test? else none

/-- The test at a position, if it was not set. -/
def unset (code : Array Exec) (p : Nat) : Option TestMark := code[p]?.bind Exec.unset?

def IsJump (code : Array Exec) (p : Nat) : Prop := ∃ target line, code[p]? = some ⟨.jump target, line⟩

section Code

variable {code : Array Exec} {e : Exec} {p q : Nat} {l : Lowering}

theorem unset_size : unset code code.size = none := by simp [unset]

theorem unset_push_size : unset (code.push e) code.size = e.unset? := by simp [unset]

theorem unset_push_of_ne (h : p ≠ code.size) : unset (code.push e) p = unset code p := by
  simp [unset, Array.getElem?_push, h]

theorem unset_push (h : e.unset? = none) : unset (code.push e) = unset code := by
  funext p
  by_cases hp : p = code.size
  · rw [hp, unset_push_size, unset_size, h]
  · exact unset_push_of_ne hp

theorem unset_push_test : unset (code.push e) = Function.update (unset code) code.size e.unset? := by
  funext p
  by_cases hp : p = code.size
  · rw [hp, unset_push_size, Function.update_self]
  · rw [unset_push_of_ne hp, Function.update_of_ne hp]

theorem IsJump.unset (h : IsJump code p) : unset code p = none := by
  obtain ⟨target, line, h⟩ := h
  simp [Replay.unset, h, Exec.unset?, Step.isUnset]

theorem IsJump.push (h : IsJump code p) : IsJump (code.push e) p := by
  obtain ⟨target, line, h⟩ := h
  have hp : p < code.size := (Array.getElem?_eq_some_iff.mp h).1
  exact ⟨target, line, by rw [Array.getElem?_push_lt hp, ← h, Array.getElem?_eq_getElem hp]⟩

theorem isJump_push_size {target : Nat} {line : Option Nat} : IsJump (code.push ⟨.jump target, line⟩) code.size :=
  ⟨target, line, by simp⟩

/-- A step that was patched is set. -/
theorem Exec.unset?_withTarget (e : Exec) {target : Nat} (h : 0 < target) :
    Exec.unset? { e with step := e.step.withTarget target } = none := by
  obtain ⟨target, rfl⟩ := Nat.exists_eq_add_one_of_ne_zero h.ne'
  obtain ⟨step, line⟩ := e
  cases step <;> rfl

theorem unset_patch : unset (l.patch p).code = Function.update (unset l.code) p none := by
  funext q
  simp only [unset, Lowering.patch, Array.getElem?_modify]
  by_cases hq : q = p
  · subst hq
    rw [if_pos rfl, Function.update_self]
    cases hc : l.code[q]? with
    | none => rfl
    | some e =>
      have hsize : 0 < l.code.size := by
        obtain ⟨h, -⟩ := Array.getElem?_eq_some_iff.mp hc
        omega
      exact e.unset?_withTarget hsize
  · rw [if_neg (Ne.symm hq), Function.update_of_ne hq]
    rfl

theorem IsJump.patch (h : IsJump l.code p) (q : Nat) : IsJump (l.patch q).code p := by
  obtain ⟨target, line, h⟩ := h
  simp only [IsJump, Lowering.patch, Array.getElem?_modify, h]
  by_cases hq : q = p
  · exact ⟨l.code.size, line, by rw [if_pos hq]; rfl⟩
  · exact ⟨target, line, if_neg hq⟩

theorem IsJump.patchAll (h : IsJump l.code p) (qs : List Nat) : IsJump (l.patchAll qs).code p := by
  induction qs generalizing l with
  | nil => exact h
  | cons q qs ih => exact ih (h.patch q)

/-- Patching jumps leaves the tests alone. -/
theorem unset_patchAll {ps : List Nat} (h : ∀ p ∈ ps, IsJump l.code p) :
    unset (l.patchAll ps).code = unset l.code := by
  induction ps generalizing l with
  | nil => rfl
  | cons p ps ih =>
    obtain ⟨hp, hps⟩ := List.forall_mem_cons.mp h
    have hpatch : unset (l.patch p).code = unset l.code := by
      rw [unset_patch, ← hp.unset, Function.update_eq_self]
    exact (ih fun q hq => (hps q hq).patch p).trans hpatch

theorem Exec.test?_of_computes (h : e.step.computes = true) : e.test? = none := by
  obtain ⟨step, line⟩ := e
  cases step <;> first | rfl | cases h

variable {guard : Array Exec} {start : Nat}

theorem unset_append (h : ∀ e ∈ guard, e.step.computes = true) : unset (code ++ guard) = unset code := by
  funext p
  unfold unset
  rcases Nat.lt_or_ge p code.size with hp | hp
  · rw [Array.getElem?_append_left hp]
  · rw [Array.getElem?_append_right hp, Array.getElem?_eq_none hp]
    cases hg : guard[p - code.size]? with
    | none => rfl
    | some e =>
      have he := h e (Array.mem_of_getElem? hg)
      rw [Option.bind_some, Exec.unset?, Exec.test?_of_computes he, ite_self]
      rfl

theorem IsJump.append (h : IsJump code p) : IsJump (code ++ guard) p := by
  obtain ⟨target, line, h⟩ := h
  have hp : p < code.size := (Array.getElem?_eq_some_iff.mp h).1
  exact ⟨target, line, by rw [Array.getElem?_append_left hp, h]⟩

/-- A jump is no part of a guard. -/
theorem IsJump.before_guard (h : IsJump (code ++ guard) p) (hg : ∀ e ∈ guard, e.step.computes = true) :
    IsJump code p := by
  obtain ⟨target, line, h⟩ := h
  rcases Nat.lt_or_ge p code.size with hp | hp
  · exact ⟨target, line, by rw [← h, Array.getElem?_append_left hp]⟩
  · rw [Array.getElem?_append_right hp] at h
    cases hg _ (Array.mem_of_getElem? h)

end Code

/-- The positions where tests were not set. -/
def Unset (tests : Nat → Option TestMark) (ps : List Nat) : Prop := ps.Nodup ∧ ∀ p, (tests p).isSome = true ↔ p ∈ ps

namespace Unset

variable {tests : Nat → Option TestMark} {ps ps' : List Nat} {p : Nat} {mark : TestMark}

theorem perm (h : Unset tests ps) (hps : ps.Perm ps') : Unset tests ps' :=
  ⟨hps.nodup_iff.mp h.1, fun p => (h.2 p).trans hps.mem_iff⟩

theorem not_mem (h : Unset tests ps) (hp : tests p = none) : p ∉ ps := fun hmem => by
  have hsome := (h.2 p).mpr hmem
  rw [hp] at hsome
  cases hsome

theorem add (h : Unset tests ps) (hp : tests p = none) : Unset (Function.update tests p (some mark)) (p :: ps) := by
  refine ⟨List.nodup_cons.mpr ⟨h.not_mem hp, h.1⟩, fun q => ?_⟩
  by_cases hq : q = p
  · simp [hq]
  · rw [Function.update_of_ne hq, h.2, List.mem_cons, or_iff_right hq]

theorem remove (h : Unset tests (p :: ps)) : Unset (Function.update tests p none) ps := by
  obtain ⟨hp, hps⟩ := List.nodup_cons.mp h.1
  refine ⟨hps, fun q => ?_⟩
  by_cases hq : q = p
  · simp [hq, hp]
  · rw [Function.update_of_ne hq, h.2, List.mem_cons, or_iff_right hq]

end Unset

namespace Frame

def kind : Frame → ControlKind
  | .procedure _ => .procedure
  | .branch .. | .lastBranch _ => .conditional
  | .whileLoop .. => .whileLoop
  | .forLoop .. => .forLoop

/-- Where the tests are that the end of the construct sets. -/
def waiting : Frame → List Nat
  | .branch pending _ => [pending]
  | .whileLoop _ exit | .forLoop _ _ exit => exit.toList
  | .procedure _ | .lastBranch _ => []

/-- Where the jumps are that the end of the construct sets. -/
def skips : Frame → List Nat
  | .procedure skip => [skip]
  | .branch _ exits | .lastBranch exits => exits
  | .whileLoop .. | .forLoop .. => []

/-- In a loop the test that waits is the last one. -/
structure Holds (tests : Nat → Option TestMark) (f : Frame) (o : Opened) : Prop where
  kind : o.IsOf f.kind
  last : f.kind.isLoop = true → f.waiting.map tests = o.middles.getLast?.toList.map Instr.test?

theorem Holds.congr {tests tests' : Nat → Option TestMark} {f : Frame} {o : Opened} (h : f.Holds tests o)
    (heq : ∀ p ∈ f.waiting, tests' p = tests p) : f.Holds tests' o :=
  ⟨h.kind, fun hloop => (List.map_congr_left heq).trans (h.last hloop)⟩

end Frame

def waiting (m : Markers Frame) : List Nat := m.flatMap (·.frame.waiting)

/-- The tests that are not set: those at `ws`, those that the open constructs wait to set, and lost ones. -/
structure Waits (tests : Nat → Option TestMark) (ws : List Nat) (m : Markers Frame) (opened : Markers Opened)
    (lost : List Nat) (marks : List (Option TestMark)) : Prop where
  frames : List.Forall₂ (fun o o' => o.frame.Holds tests o'.frame) m opened
  unset : Unset tests (ws ++ (waiting m ++ lost))
  marks : (lost.map tests).Perm marks

namespace Waits

variable {tests : Nat → Option TestMark} {ws ws' lost : List Nat} {m : Markers Frame} {opened : Markers Opened}
  {marks marks' : List (Option TestMark)} {o : OpenMarker Frame} {o' : OpenMarker Opened} {p : Nat} {mark : TestMark}

theorem imp (h : Waits tests ws m opened lost marks) (hmarks : marks.Perm marks') :
    Waits tests ws m opened lost marks' :=
  ⟨h.frames, h.unset, h.marks.trans hmarks⟩

theorem congr {tests' : Nat → Option TestMark} (h : Waits tests ws m opened lost marks)
    (heq : ∀ q ∈ waiting m ++ lost, tests' q = tests q) (hunset : Unset tests' (ws' ++ (waiting m ++ lost))) :
    Waits tests' ws' m opened lost marks := by
  have hwaiting (o : OpenMarker Frame) (ho : o ∈ m) : ∀ q ∈ o.frame.waiting, tests' q = tests q := fun q hq =>
    heq q (List.mem_append_left _ (List.mem_flatMap.mpr ⟨o, ho, hq⟩))
  refine ⟨?_, hunset, ?_⟩
  · refine List.forall₂_iff_get.mpr ?_
    obtain ⟨hlen, hget⟩ := List.forall₂_iff_get.mp h.frames
    exact ⟨hlen, fun k hk hk' => (hget k hk hk').congr (hwaiting _ (List.get_mem m ⟨k, hk⟩))⟩
  · rw [List.map_congr_left fun q hq => heq q (List.mem_append_right _ hq)]
    exact h.marks

theorem add (h : Waits tests ws m opened lost marks) (hp : tests p = none) :
    Waits (Function.update tests p (some mark)) (p :: ws) m opened lost marks := by
  refine h.congr (fun q hq => Function.update_of_ne ?_ _ _) (h.unset.add hp)
  rintro rfl
  exact h.unset.not_mem hp (List.mem_append_right _ hq)

theorem remove (h : Waits tests (p :: ws) m opened lost marks) :
    Waits (Function.update tests p none) ws m opened lost marks := by
  refine h.congr (fun q hq => Function.update_of_ne ?_ _ _) h.unset.remove
  rintro rfl
  exact (List.nodup_cons.mp h.unset.1).1 (List.mem_append_right _ hq)

theorem lose (h : Waits tests (ws' ++ ws) m opened lost marks) :
    Waits tests ws m opened (ws' ++ lost) (ws'.map tests ++ marks) := by
  refine ⟨h.frames, h.unset.perm ?_, ?_⟩
  · have hperm : (ws' ++ (ws ++ waiting m)).Perm (ws ++ waiting m ++ ws') := List.perm_append_comm
    simpa only [List.append_assoc] using hperm.append_right lost
  · rw [List.map_append]
    exact h.marks.append_left _

theorem push (h : Waits tests o.frame.waiting m opened lost marks) (ho : o.frame.Holds tests o'.frame) :
    Waits tests [] (o :: m) (o' :: opened) lost marks :=
  ⟨.cons ho h.frames, by simpa [waiting] using h.unset, h.marks⟩

theorem pop (h : Waits tests [] (o :: m) opened lost marks) :
    ∃ o' rest, opened = o' :: rest ∧ o.frame.Holds tests o'.frame ∧
      Waits tests o.frame.waiting m rest lost marks := by
  obtain ⟨o', rest, ho, hrest, rfl⟩ := List.forall₂_cons_left_iff.mp h.frames
  exact ⟨o', rest, rfl, ho, hrest, by simpa [waiting] using h.unset, h.marks⟩

end Waits

end Replay

section Overtaken

variable {r : MarkerRun} {i : Instr} {k : ControlKind} {o : OpenMarker Opened} {rest : Markers Opened}
  {start : Instr}

theorem overtaken_of_loop {middles : List Instr} (h : start.op.role = .opens k)
    (hk : k.isLoop = true) : overtaken start middles = middles.dropLast := by
  rw [overtaken, Instr.opensLoop_eq h, hk, if_pos rfl]

theorem overtaken_of_other {middles : List Instr} (h : start.op.role = .opens k)
    (hk : k.isLoop = false) : overtaken start middles = [] := by
  rw [overtaken, Instr.opensLoop_eq h, hk, if_neg Bool.false_ne_true]

theorem overtaken_nil : overtaken start [] = [] := by
  exact ite_self _

namespace MarkerRun

theorem overtaken_push : ({ r with markers := r.markers.push ⟨i, []⟩ i } : MarkerRun).overtaken = r.overtaken := by
  simp [overtaken, Markers.push, overtaken_nil]

theorem overtaken_pop : (⟨rest, r.closed ++ [⟨o.frame.start, o.frame.middles, i⟩]⟩ : MarkerRun).overtaken =
    ({ r with markers := o :: rest } : MarkerRun).overtaken := by
  simp [overtaken, Construct.overtaken]

/-- A further test of a loop overtakes the last one. -/
theorem overtaken_loop (h : o.frame.IsOf k) (hk : k.isLoop = true) (hm : r.markers = o :: rest) :
    (o.frame.middles.getLast?.toList ++ r.overtaken).Perm
      ({ r with markers := o.divided i :: rest } : MarkerRun).overtaken := by
  have hsplit : o.frame.middles.dropLast ++ o.frame.middles.getLast?.toList = o.frame.middles := by
    cases hlast : o.frame.middles.getLast? with
    | none => simp [List.getLast?_eq_none_iff.mp hlast]
    | some t => exact List.dropLast_append_getLast? t hlast
  simp only [overtaken, hm, List.flatMap_cons, OpenMarker.divided, overtaken_of_loop h hk, List.dropLast_concat]
  generalize o.frame.middles.getLast?.toList = last at hsplit ⊢
  generalize o.frame.middles.dropLast = init at hsplit ⊢
  rw [← hsplit]
  refine (List.perm_append_comm_assoc ..).trans (List.Perm.append_left _ ?_)
  simpa only [List.append_assoc] using (List.perm_append_comm_assoc ..)

theorem overtaken_other (h : o.frame.IsOf k) (hk : k.isLoop = false) (hm : r.markers = o :: rest) :
    ({ r with markers := o.divided i :: rest } : MarkerRun).overtaken = r.overtaken := by
  simp [overtaken, hm, OpenMarker.divided, overtaken_of_other h hk]

end MarkerRun

end Overtaken

namespace Replay

/-- Jump code in the making: jumps over bodies and behind branches stand where the frames have them. -/
structure Patches (l : Lowering) (r : MarkerRun) : Prop where
  skips : ∀ o ∈ l.markers, ∀ p ∈ o.frame.skips, IsJump l.code p
  waits : ∃ lost, Waits (unset l.code) [] l.markers r.markers lost (r.overtaken.map Instr.test?)

namespace Patches

variable {l l' : Lowering} {r : MarkerRun} {i : Instr} {f : Frame} {o : OpenMarker Frame} {rest : Markers Frame}
  {k : ControlKind} {e : Exec}

theorem emit (h : Patches l r) (he : e.unset? = none) (hcode : l'.code = l.code.push e)
    (hm : l'.markers = l.markers) : Patches l' r := by
  obtain ⟨hskips, lost, hwaits⟩ := h
  constructor
  · rw [hcode, hm]
    exact fun o ho p hp => (hskips o ho p hp).push
  · rw [hcode, hm, unset_push he]
    exact ⟨lost, hwaits⟩

theorem opens (h : Patches l r) (hrole : i.op.role = .opens f.kind) (hm : l'.markers = l.markers.push f i)
    (hjump : ∀ p, IsJump l.code p → IsJump l'.code p) (hskips : ∀ p ∈ f.skips, IsJump l'.code p)
    (hloop : f.kind.isLoop = true → f.waiting = [])
    (hwaits : ∀ {lost marks}, Waits (unset l.code) [] l.markers r.markers lost marks →
      Waits (unset l'.code) f.waiting l.markers r.markers lost marks) :
    ∃ r', r.instr i = .ok r' ∧ Patches l' r' := by
  obtain ⟨lost, hlost⟩ := h.waits
  refine ⟨_, MarkerRun.instr_opens hrole, ?_, lost, ?_⟩
  · rw [hm]
    exact List.forall_mem_cons.mpr ⟨hskips, fun o ho p hp => hjump p (h.skips o ho p hp)⟩
  · rw [MarkerRun.overtaken_push, hm]
    refine Waits.push (o := ⟨f, _, _⟩) (hwaits hlost) ⟨hrole, fun hl => ?_⟩
    rw [hloop hl]
    rfl

theorem closes (h : Patches l r) (hm : l.markers = o :: rest) (hrole : i.op.role = .closes o.frame.kind)
    (hm' : l'.markers = rest) (hjump : ∀ p, IsJump l.code p → IsJump l'.code p)
    (hwaits : ∀ {opened lost marks}, Waits (unset l.code) o.frame.waiting rest opened lost marks →
      Waits (unset l'.code) [] rest opened lost marks) :
    ∃ r', r.instr i = .ok r' ∧ Patches l' r' := by
  obtain ⟨hskips, lost, hlost⟩ := h
  rw [hm] at hskips hlost
  obtain ⟨o', opened, hr, ho, hrest⟩ := hlost.pop
  refine ⟨_, MarkerRun.instr_closes hrole hr ho.kind, ?_, lost, ?_⟩
  · rw [hm']
    exact fun o ho p hp => hjump p (hskips o (List.mem_cons_of_mem _ ho) p hp)
  · rw [MarkerRun.overtaken_pop, ← hr, hm']
    exact hwaits hrest

theorem divides_branch (h : Patches l r) (hm : l.markers = o :: rest) (hrole : i.op.role = .divides .conditional)
    (hk : o.frame.kind = .conditional) (hf : f.kind = .conditional) (hm' : l'.markers = { o with frame := f } :: rest)
    (hjump : ∀ p, IsJump l.code p → IsJump l'.code p) (hskips : ∀ p ∈ f.skips, IsJump l'.code p)
    (hwaits : ∀ {opened lost marks}, Waits (unset l.code) o.frame.waiting rest opened lost marks →
      Waits (unset l'.code) f.waiting rest opened lost marks) :
    ∃ r', r.instr i = .ok r' ∧ Patches l' r' := by
  obtain ⟨lost, hlost⟩ := h.waits
  rw [hm] at hlost
  obtain ⟨o', opened, hr, ho, hrest⟩ := hlost.pop
  have hkind : o'.frame.IsOf .conditional := hk ▸ ho.kind
  refine ⟨_, MarkerRun.instr_divides hrole hr hkind, ?_, lost, ?_⟩
  · rw [hm']
    refine List.forall_mem_cons.mpr ⟨hskips, fun o ho p hp => hjump p (h.skips o ?_ p hp)⟩
    exact hm ▸ List.mem_cons_of_mem _ ho
  · rw [MarkerRun.overtaken_other hkind rfl hr, hm']
    refine Waits.push (o := ⟨f, _, _⟩) (hwaits hrest) ⟨by rw [hf]; exact hkind, fun hl => ?_⟩
    rw [hf] at hl
    cases hl

/-- A test of a loop that has one already: the earlier one is lost. -/
theorem divides_loop (h : Patches l r) (hm : l.markers = o :: rest) (hrole : i.op.role = .divides k)
    (hloop : k.isLoop = true) (hk : o.frame.kind = k) (hf : f.kind = k) (hwaiting : f.waiting = [l.code.size])
    (hfskips : f.skips = []) (hm' : l'.markers = { o with frame := f } :: rest)
    (hcode : l'.code = l.code.push e) (mark : TestMark) (he : e.unset? = some mark) (hi : i.test? = some mark) :
    ∃ r', r.instr i = .ok r' ∧ Patches l' r' := by
  obtain ⟨lost, hlost⟩ := h.waits
  rw [hm] at hlost
  obtain ⟨o', opened, hr, ho, hrest⟩ := hlost.pop
  have hkind : o'.frame.IsOf k := hk ▸ ho.kind
  have hlast := ho.last (hk ▸ hloop)
  refine ⟨_, MarkerRun.instr_divides hrole hr hkind, ?_, o.frame.waiting ++ lost, ?_⟩
  · rw [hm', hcode]
    refine List.forall_mem_cons.mpr ⟨by rw [hfskips]; exact fun _ => nofun, fun o ho p hp => ?_⟩
    exact (h.skips o (hm ▸ List.mem_cons_of_mem _ ho) p hp).push
  · rw [← List.append_nil o.frame.waiting] at hrest
    have hadded : Waits (Function.update _ l.code.size (some mark)) _ _ _ _ _ := hrest.lose.add unset_size
    rw [← he, ← unset_push_test, ← hcode, hlast, ← List.map_append] at hadded
    rw [hm']
    refine (Waits.push (o := ⟨f, _, _⟩) (hwaiting ▸ hadded) ⟨hf ▸ hkind, fun _ => ?_⟩).imp
      ((MarkerRun.overtaken_loop hkind hloop hr).map _)
    rw [hwaiting, hcode]
    simp [unset_push_size, OpenMarker.divided, he, hi]

end Patches

namespace Frame

variable {f : Frame}

theorem of_procedure? {skip : Nat} (h : f.procedure? = some skip) : f = .procedure skip := by
  cases f <;> cases h
  rfl

theorem of_branch? {pending : Option Nat} {exits : List Nat} (h : f.branch? = some (pending, exits)) :
    f.kind = .conditional ∧ f.waiting = pending.toList ∧ f.skips = exits := by
  cases f <;> cases h <;> exact ⟨rfl, rfl, rfl⟩

theorem of_while? {head : Nat} {exit : Option Nat} (h : f.while? = some (head, exit)) : f = .whileLoop head exit := by
  cases f <;> cases h
  rfl

theorem of_for? {head : Nat} {counter : VarRef} {exit : Option Nat} (h : f.for? = some (head, counter, exit)) :
    f = .forLoop head counter exit := by
  cases f <;> cases h
  rfl

end Frame

section Marks

variable {l : Lowering} {m : Markers Frame} {opened : Markers Opened} {lost : List Nat}
  {marks : List (Option TestMark)}

/-- What waited for the end of a construct is set there. -/
theorem waits_patchAll (pending : Option Nat) (exits : List Nat)
    (h : Waits (unset l.code) pending.toList m opened lost marks)
    (hexits : ∀ p ∈ exits, IsJump l.code p) :
    Waits (unset (l.patchAll (pending.toList ++ exits)).code) [] m opened lost marks := by
  cases pending with
  | none =>
    rw [Option.toList_none, List.nil_append, unset_patchAll hexits]
    exact h
  | some p =>
    have hpatched : ∀ q ∈ exits, IsJump (l.patch p).code q := fun q hq => (hexits q hq).patch p
    rw [Option.toList_some, List.singleton_append, show l.patchAll (p :: exits) = (l.patch p).patchAll exits from rfl,
      unset_patchAll hpatched, unset_patch]
    exact h.remove

end Marks

namespace Patches

variable {l l' : Lowering} {r : MarkerRun} {i : Instr}

/-- The end of a loop, with the step that goes back. -/
theorem endLoop {o : OpenMarker Frame} {rest : Markers Frame} (h : Patches l r) (exit : Option Nat) (step : Step)
    (hm : l.markers = o :: rest) (hrole : i.op.role = .closes o.frame.kind) (hwaiting : o.frame.waiting = exit.toList)
    (hstep : Exec.unset? ⟨step, none⟩ = none) (hm' : l'.markers = rest)
    (hcode : l'.code = ((l.emit step none).patchAll exit.toList).code) :
    ∃ r', r.instr i = .ok r' ∧ Patches l' r' := by
  refine h.closes hm hrole hm' (fun p hp => ?_) fun {opened lost marks} hwaits => ?_
  · rw [hcode]
    exact IsJump.patchAll hp.push _
  · rw [hcode, ← List.append_nil exit.toList]
    refine waits_patchAll exit [] ?_ (List.forall_mem_nil _)
    rw [← hwaiting, show (l.emit step none).code = l.code.push ⟨step, none⟩ from rfl, unset_push hstep]
    exact hwaits

theorem elseIf (h : l.elseIf i = .ok l') (hl : Patches l r) (hi : i.op = .elseIf) :
    ∃ r', r.instr i = .ok r' ∧ Patches l' r' := by
  obtain ⟨start, pending, exits, o, rest, hstart, hm, ho, hcode, hm', -, -⟩ := Lowering.of_elseIf h
  obtain ⟨hle, hsplit, hguard⟩ := guard_split hstart
  set before : Lowering := { l with code := l.code.shrink start } with hbefore
  have hsize : before.code.size = start := by simpa [hbefore] using hle
  have hends (p : Nat) (hp : IsJump (before.emit (.jump 0) none).code p) : IsJump l'.code p := by
    rw [hcode]
    exact (hp.patch pending).append.push
  have hjump (p : Nat) (hp : IsJump l.code p) : IsJump l'.code p := by
    rw [hsplit] at hp
    exact hends p (hp.before_guard hguard).push
  have hunset : unset (((before.emit (.jump 0) none).patch pending).code ++ l.code.extract start) =
      Function.update (unset l.code) pending none := by
    have hemit : unset (before.emit (.jump 0) none).code = unset before.code := unset_push rfl
    have hsame : unset l.code = unset before.code := (congrArg unset hsplit).trans (unset_append hguard)
    rw [unset_append hguard, unset_patch, hemit, hsame]
  have hend : (((before.emit (.jump 0) none).patch pending).code ++ l.code.extract start).size = l.code.size + 1 := by
    simp [Lowering.emit, Lowering.patch, hsize]
    omega
  refine hl.divides_branch (f := .branch (l.code.size + 1) (start :: exits)) hm (by rw [hi]; rfl) (by rw [ho]; rfl) rfl
    hm' hjump ?_ fun {opened lost marks} hwaits => ?_
  · refine List.forall_mem_cons.mpr ⟨hends start ?_, fun p hp => hjump p ?_⟩
    · have hnew : IsJump (before.code.push ⟨.jump 0, none⟩) before.code.size := isJump_push_size
      rw [hsize] at hnew
      exact hnew
    · exact hl.skips o (hm ▸ List.mem_cons_self) p (by rw [ho]; exact hp)
  · rw [ho] at hwaits
    have hset : Waits _ [] rest opened lost marks := hwaits.remove
    rw [← hunset] at hset
    rw [hcode, unset_push_test, ← hend]
    exact hset.add unset_size

theorem instr (h : l.instr i = .ok l') (hl : Patches l r) : ∃ r', r.instr i = .ok r' ∧ Patches l' r' := by
  obtain ⟨op, line⟩ := i
  cases op with
  | declare name | const name value | load name | store name | read name =>
    obtain ⟨v, -, h⟩ := ok_of_bind h
    cases h
    exact ⟨r, MarkerRun.instr_plain rfl, hl.emit rfl rfl rfl⟩
  | push value | oper op | write =>
    cases h
    exact ⟨r, MarkerRun.instr_plain rfl, hl.emit rfl rfl rfl⟩
  | call name =>
    obtain ⟨id, -, h⟩ := ok_of_bind h
    split at h
    · cases h
      exact ⟨r, MarkerRun.instr_plain rfl, hl.emit rfl rfl rfl⟩
    · cases h
  | procedureStart name =>
    cases h
    have hsame : unset (l.emit (.jump 0) none).code = unset l.code := unset_push rfl
    refine hl.opens (f := .procedure l.code.size) rfl rfl (fun p hp => hp.push) ?_ nofun fun hwaits => ?_
    · exact List.forall_mem_singleton.mpr isJump_push_size
    · rw [← hsame] at hwaits
      exact hwaits
  | procedureEnd name =>
    obtain ⟨⟨skip, markers⟩, hpop, h⟩ := ok_of_bind h
    cases h
    obtain ⟨o, hm, ho⟩ := Markers.of_pop hpop
    have hf := Frame.of_procedure? ho
    have hskip : IsJump l.code skip :=
      hl.skips o (hm ▸ List.mem_cons_self) skip (by rw [hf]; exact List.mem_singleton_self _)
    have hsame : unset (l.emit .leave none).code = unset l.code := unset_push rfl
    refine hl.closes hm (by rw [hf]; rfl) rfl (fun p hp => IsJump.patch (l := l.emit .leave none) hp.push _)
      fun hwaits => ?_
    rw [hf, ← hsame] at hwaits
    exact waits_patchAll (l := l.emit .leave none) none [skip] hwaits (List.forall_mem_singleton.mpr hskip.push)
  | ifMark =>
    cases h
    have htest : unset (l.emit (.jumpIfFalse 0) (some line)).code =
        Function.update (unset l.code) l.code.size (some ("JUMP_IF_FALSE", some line)) := unset_push_test
    refine hl.opens (f := .branch l.code.size []) rfl rfl (fun p hp => hp.push) (List.forall_mem_nil _) nofun
      fun hwaits => ?_
    exact htest ▸ hwaits.add unset_size
  | elseIf => exact elseIf h hl rfl
  | elseMark =>
    obtain ⟨b, hb, h⟩ := ok_of_bind h
    cases h
    obtain ⟨o, rest, hm, ho⟩ := Lowering.of_openBranch hb
    have hsame : unset (l.emit (.jump 0) none).code = unset l.code := unset_push rfl
    have hjump (p : Nat) (hp : IsJump l.code p) : IsJump ((l.emit (.jump 0) none).patch b.1).code p :=
      IsJump.patch (l := l.emit (.jump 0) none) hp.push _
    refine hl.divides_branch (f := .lastBranch (l.code.size :: b.2)) hm rfl (by rw [ho]; rfl) rfl ?_ hjump ?_
      fun hwaits => ?_
    · simp [Lowering.emit, Lowering.patch, Markers.replace, hm]
    · refine List.forall_mem_cons.mpr ⟨?_, fun p hp => hjump p ?_⟩
      · exact IsJump.patch (l := l.emit (.jump 0) none) isJump_push_size _
      · exact hl.skips o (hm ▸ List.mem_cons_self) p (by rw [ho]; exact hp)
    · rw [ho, ← hsame] at hwaits
      exact waits_patchAll (l := l.emit (.jump 0) none) (some b.1) [] hwaits (List.forall_mem_nil _)
  | endIf =>
    obtain ⟨⟨⟨pending, exits⟩, markers⟩, hpop, h⟩ := ok_of_bind h
    cases h
    obtain ⟨o, hm, ho⟩ := Markers.of_pop hpop
    obtain ⟨hkind, hwaiting, hskips⟩ := Frame.of_branch? ho
    have hjumps : ∀ p ∈ exits, IsJump l.code p :=
      hskips ▸ hl.skips o (hm ▸ List.mem_cons_self)
    refine hl.closes hm (by rw [hkind]; rfl) rfl (fun p hp => hp.patchAll _) fun hwaits => ?_
    exact waits_patchAll pending exits (hwaiting ▸ hwaits) hjumps
  | whileMark =>
    cases h
    exact hl.opens (f := .whileLoop l.code.size none) rfl rfl (fun p hp => hp) (List.forall_mem_nil _) (fun _ => rfl) id
  | doMark =>
    obtain ⟨⟨head, exit⟩, htop, h⟩ := ok_of_bind h
    cases h
    obtain ⟨o, rest, hm, ho⟩ := Markers.of_top htop
    have hf := Frame.of_while? ho
    refine hl.divides_loop (f := .whileLoop head (some l.code.size)) (k := .whileLoop) hm rfl rfl (by rw [hf]; rfl) rfl
      rfl rfl ?_ rfl ("JUMP_IF_FALSE", some line) rfl rfl
    simp [Lowering.emit, Markers.replace, hm]
  | endWhile =>
    obtain ⟨⟨⟨head, exit⟩, markers⟩, hpop, h⟩ := ok_of_bind h
    cases h
    obtain ⟨o, hm, ho⟩ := Markers.of_pop hpop
    have hf := Frame.of_while? ho
    exact hl.endLoop exit (.jump head) hm (by rw [hf]; rfl) (by rw [hf]; rfl) rfl rfl rfl
  | forInit name =>
    obtain ⟨v, -, h⟩ := ok_of_bind h
    cases h
    have hsame : unset (l.emit (.store v) (some line)).code = unset l.code := unset_push rfl
    refine hl.opens (f := .forLoop (l.code.size + 1) v none) rfl ?_ (fun p hp => hp.push) (List.forall_mem_nil _)
      (fun _ => rfl) fun hwaits => ?_
    · simp [Lowering.emit]
    · rw [← hsame] at hwaits
      exact hwaits
  | forTo name =>
    obtain ⟨⟨head, counter, exit⟩, htop, h⟩ := ok_of_bind h
    cases h
    obtain ⟨o, rest, hm, ho⟩ := Markers.of_top htop
    have hf := Frame.of_for? ho
    refine hl.divides_loop (f := .forLoop head counter (some l.code.size)) (k := .forLoop) hm rfl rfl (by rw [hf]; rfl)
      rfl rfl rfl ?_ rfl ("FOR_TO", some line) rfl rfl
    simp [Lowering.emit, Markers.replace, hm]
  | endFor name =>
    obtain ⟨⟨⟨head, counter, exit⟩, markers⟩, hpop, h⟩ := ok_of_bind h
    cases h
    obtain ⟨o, hm, ho⟩ := Markers.of_pop hpop
    have hf := Frame.of_for? ho
    exact hl.endLoop exit (.forStep counter head) hm (by rw [hf]; rfl) (by rw [hf]; rfl) rfl rfl rfl

end Patches

def tests (code : Array Exec) : List TestMark := code.toList.filterMap Exec.test?

section Tests

variable {procedures : Array Procedure} {i : Instr} {e : Exec} {done : List Instr} {code : List Exec}

theorem Renders.test? (h : Renders procedures i e) : e.test? = i.test? := by
  obtain ⟨op, line⟩ := i
  obtain ⟨step, line'⟩ := e
  obtain ⟨rfl, h⟩ := h
  cases op with
  | declare | const | load | store | read | forInit | ifMark | elseIf | doMark =>
    obtain ⟨x, rfl⟩ := h
    rfl
  | push | oper | write =>
    obtain rfl := h
    rfl
  | call =>
    obtain ⟨number, path, entry, rfl, -⟩ := h
    rfl
  | forTo =>
    obtain ⟨counter, exit, rfl⟩ := h
    rfl
  | procedureStart | procedureEnd | elseMark | endIf | whileMark | endWhile | endFor => exact h.elim

theorem Instr.test?_of_mark (h : i.isExecuted = false) : i.test? = none := by
  obtain ⟨op, line⟩ := i
  cases op <;> first | rfl | cases h

theorem Exec.test?_of_transfer (h : e.step.isTransfer = true) : e.test? = none := by
  obtain ⟨step, line⟩ := e
  cases step <;> first | rfl | cases h

theorem filterMap_filter_of_none {α β : Type} {f : α → Option β} {q : α → Bool} {as : List α}
    (h : ∀ a ∈ as, q a = false → f a = none) : (as.filter q).filterMap f = as.filterMap f := by
  rw [List.filterMap_filter]
  refine List.filterMap_congr fun a ha => ?_
  cases hq : q a with
  | true => rfl
  | false => exact (h a ha hq).symm

theorem RenderedBy.tests (h : RenderedBy procedures done code) :
    code.filterMap Exec.test? = done.filterMap Instr.test? := by
  have hlined (e : Exec) (he : e ∈ code) (hline : e.isLined = false) : e.test? = none :=
    Exec.test?_of_transfer ((h.transfers e he).mp (Option.isNone_iff_eq_none.mp (Option.isSome_eq_false_iff.mp hline)))
  have hsteps : (code.filter Exec.isLined).filterMap Exec.test? =
      (done.filter Instr.isExecuted).filterMap Instr.test? := by
    have hrenders := h.steps
    generalize code.filter Exec.isLined = steps, done.filter Instr.isExecuted = is at hrenders
    induction hrenders with
    | nil => rfl
    | cons hr _ ih => rw [List.filterMap_cons, List.filterMap_cons, hr.test?, ih]
  rw [← filterMap_filter_of_none hlined, hsteps, filterMap_filter_of_none fun i _ => Instr.test?_of_mark]

end Tests

/-- The tests that are not set, as the code has them. -/
theorem Unset.filterMap_perm {code : Array Exec} {ps : List Nat} (h : Unset (unset code) ps) :
    (code.toList.filterMap Exec.unset?).Perm ((ps.map (unset code)).filterMap id) := by
  have hall : code.toList.map Exec.unset? = (List.range code.size).map (unset code) := by
    refine List.ext_getElem (by simp) fun p hp hp' => ?_
    rw [List.length_map, List.length_range] at hp'
    simp [unset, hp']
  have hps : ((List.range code.size).filter fun p => (unset code p).isSome).Perm ps := by
    refine (List.perm_ext_iff_of_nodup (List.nodup_range.filter _) h.1).mpr fun p => ?_
    rw [List.mem_filter, List.mem_range, h.2, and_iff_right_iff_imp]
    intro hp
    by_contra hlt
    have hnone : unset code p = none := by simp [unset, Nat.le_of_not_lt hlt]
    exact h.not_mem hnone hp
  have hkept : (code.toList.filterMap Exec.unset?) =
      (((List.range code.size).filter fun p => (unset code p).isSome).map (unset code)).filterMap id := by
    have hid := congrArg (List.filterMap id) hall
    simp only [List.filterMap_map, Function.id_comp, List.filterMap_filter] at hid ⊢
    rw [hid]
    refine List.filterMap_congr fun p _ => ?_
    cases unset code p <;> rfl
  rw [hkept]
  exact (hps.map _).filterMap _

/-- Jump code has the tests of its code in order, and those that are not set are the overtaken ones. -/
theorem JumpCode.tests_of_ofCode {code : List Instr} {J : JumpCode} (h : JumpCode.ofCode code = .ok J) :
    ∃ cs, constructs code = .ok cs ∧ tests J.code = code.filterMap Instr.test? ∧
      (J.code.toList.filterMap Exec.unset?).Perm ((cs.flatMap Construct.overtaken).filterMap Instr.test?) := by
  obtain ⟨l, hl, h⟩ := ok_of_bind h
  obtain ⟨u, hfinish, h⟩ := ok_of_bind h
  cases h
  have hinitial : Patches .initial .initial :=
    ⟨List.forall_mem_nil _, [], .nil, ⟨List.nodup_nil, fun p => by simp [unset, Lowering.initial, waiting]⟩, .nil⟩
  obtain ⟨⟨opened, cs⟩, hr, hp⟩ := MarkerRun.simulates Patches.instr hl hinitial
  obtain ⟨-, lost, hframes, hunset, hmarks⟩ := hp
  rw [Markers.of_finish hfinish] at hframes hunset
  obtain rfl := List.forall₂_nil_left_iff.mp hframes
  refine ⟨cs, constructs_eq hr, (Lowering.Rendering.initial.run hl).code.tests, hunset.filterMap_perm.trans ?_⟩
  have hid := hmarks.filterMap id
  rw [List.filterMap_map (f := Instr.test?), Function.id_comp, MarkerRun.overtaken, List.flatMap_nil,
    List.append_nil] at hid
  exact hid

end Replay

open Replay

/-- Whoever accepts code finds its constructs: each test of a loop stands directly inside of it. In jump code the
tests that are not set are the overtaken ones, so there are none where each loop has one test. -/
theorem loop_tests_of_accepted (code : List Instr) :
    (∀ (t : Target) out, t.render code = .ok out → ∃ cs, constructs code = .ok cs) ∧
    ∀ J, JumpCode.ofCode code = .ok J → ∃ cs, constructs code = .ok cs ∧
      tests J.code = code.filterMap Instr.test? ∧
      (J.code.toList.filterMap Exec.unset?).Perm ((cs.flatMap Construct.overtaken).filterMap Instr.test?) ∧
      ((∀ c ∈ cs, c.TestedOnce) → ∀ e ∈ J.code.toList, e.unset? = none) := by
  refine ⟨fun t out h => Target.constructs_of_render h, fun J hJ => ?_⟩
  obtain ⟨cs, hcs, htests, hunset⟩ := JumpCode.tests_of_ofCode hJ
  refine ⟨cs, hcs, htests, hunset, fun honce => ?_⟩
  have hnone : cs.flatMap Construct.overtaken = [] :=
    List.flatMap_eq_nil_iff.mpr fun c hc => (honce c hc).overtaken
  rw [hnone, List.filterMap_nil, List.perm_nil] at hunset
  exact List.filterMap_eq_nil_iff.mp hunset

/-- A loop with two tests, the first of them overtaken. -/
theorem loop_tests_of_accepted_twice :
    ∃ cs, constructs [⟨.whileMark, 1⟩, ⟨.push 1, 1⟩, ⟨.doMark, 1⟩, ⟨.push 0, 2⟩, ⟨.doMark, 2⟩, ⟨.endWhile, 2⟩] =
        .ok cs ∧
      [("JUMP_IF_FALSE", some 1)].Perm ((cs.flatMap Construct.overtaken).filterMap Instr.test?) := by
  obtain ⟨cs, hcs, -, hunset, -⟩ := (loop_tests_of_accepted
    [⟨.whileMark, 1⟩, ⟨.push 1, 1⟩, ⟨.doMark, 1⟩, ⟨.push 0, 2⟩, ⟨.doMark, 2⟩, ⟨.endWhile, 2⟩]).2 _ rfl
  exact ⟨cs, hcs, hunset⟩

/-- A loop without test is accepted everywhere and never left, and one with two tests keeps the first unset. -/
theorem malformed_loops_accepted :
    (∀ t : Target, ∃ out, t.render [⟨.whileMark, 1⟩, ⟨.endWhile, 1⟩] = .ok out) ∧
    JumpCode.ofCode [⟨.whileMark, 1⟩, ⟨.endWhile, 1⟩] = .ok ⟨#[⟨.jump 0, none⟩], #[]⟩ ∧
    constructs [⟨.whileMark, 1⟩, ⟨.endWhile, 1⟩] = .ok [⟨⟨.whileMark, 1⟩, [], ⟨.endWhile, 1⟩⟩] ∧
    JumpCode.ofCode [⟨.whileMark, 1⟩, ⟨.push 1, 1⟩, ⟨.doMark, 1⟩, ⟨.push 0, 2⟩, ⟨.doMark, 2⟩, ⟨.endWhile, 2⟩] =
      .ok ⟨#[⟨.push 1, some 1⟩, ⟨.jumpIfFalse 0, some 1⟩, ⟨.push 0, some 2⟩, ⟨.jumpIfFalse 5, some 2⟩, ⟨.jump 0, none⟩],
        #[]⟩ := by
  refine ⟨fun t => ?_, rfl, rfl, rfl⟩
  cases t <;> exact ⟨_, rfl⟩

end PLZero
