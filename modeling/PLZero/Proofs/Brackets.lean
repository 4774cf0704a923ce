import PLZero.Instr.Scopes
import PLZero.Text.Decimal
import PLZero.Text.Lines
import Mathlib.Data.List.Basic

/-! Brackets in texts: how many are open at a place, and lines that are indented by that number. -/

namespace PLZero

def Op.name? : Op → Option String
  | .declare name | .const name _ | .load name | .store name | .call name | .read name | .procedureStart name
  | .procedureEnd name | .forInit name | .forTo name | .endFor name => some name
  | .push _ | .oper _ | .write | .ifMark | .elseIf | .elseMark | .endIf | .whileMark | .doMark | .endWhile => none

inductive Brackets
  | parens
  | braces

namespace Brackets

variable {cs : List Char}

def opening : Brackets → Char
  | parens => '('
  | braces => '\x7b'

def closing : Brackets → Char
  | parens => ')'
  | braces => '\x7d'

section

variable (b : Brackets)

/-- How many brackets are open behind a character. There is no number if it closes one that was not opened. -/
def step (d : Nat) (c : Char) : Option Nat :=
  if c = b.opening then some (d + 1)
  else if c = b.closing then (if d = 0 then none else some (d - 1))
  else some d

def after (d : Nat) (cs : List Char) : Option Nat := cs.foldlM b.step d

def Balanced (s : String) : Prop := b.after 0 s.toList = some 0

def IsFree (s : String) : Prop := ∀ c ∈ s.toList, c ≠ b.opening ∧ c ≠ b.closing

instance (s : String) : Decidable (b.IsFree s) := List.decidableBAll _ s.toList

/-- How many brackets a line closes before all else. -/
def leading (s : String) : Nat := (s.toList.takeWhile (· = b.closing)).length

/-- Lines, each indented by the brackets open before it, without those that it starts with closing; `d` are open
before the first line and `d'` behind the last. -/
inductive Indented (base : Nat) : Nat → List (Nat × String) → Nat → Prop
  | nil {d : Nat} : Indented base d [] d
  | cons {d d' d'' : Nat} {l : Nat × String} {rest : List (Nat × String)} (hindent : l.1 + b.leading l.2 = base + d)
    (hs : b.after d l.2.toList = some d') (h : Indented base d' rest d'') : Indented base d (l :: rest) d''

/-- The text closes `a` brackets of those before it and leaves `x` open, whatever is open around them. -/
def Turns (s : String) (a x : Nat) : Prop := ∀ d, b.after (d + a) s.toList = some (d + x)

end

variable {b : Brackets} {s t : String} {a x y d d' base : Nat}

theorem step_add {c : Char} (h : b.step d c = some d') (k : Nat) : b.step (d + k) c = some (d' + k) := by
  unfold step at h ⊢
  split at h
  · next hc =>
    cases h
    rw [if_pos hc, Nat.add_right_comm]
  · next hc =>
    rw [if_neg hc]
    split at h
    · next hc' =>
      rw [if_pos hc']
      split at h
      · cases h
      · next hd =>
        cases h
        rw [if_neg (by omega)]
        congr 1
        omega
    · next hc' =>
      cases h
      rw [if_neg hc']

theorem after_add (h : b.after d cs = some d') (k : Nat) : b.after (d + k) cs = some (d' + k) := by
  induction cs generalizing d with
  | nil =>
    cases h
    rfl
  | cons c cs ih =>
    unfold after at h ih ⊢
    rw [List.foldlM_cons] at h ⊢
    obtain ⟨d1, hd1, h⟩ := Option.bind_eq_some_iff.mp h
    rw [step_add hd1 k]
    exact ih h

theorem after_append {cs' : List Char} (h : b.after d cs = some d') : b.after d (cs ++ cs') = b.after d' cs' := by
  unfold after at h ⊢
  rw [List.foldlM_append, h]
  rfl

theorem after_free (h : ∀ c ∈ cs, c ≠ b.opening ∧ c ≠ b.closing) : b.after d cs = some d := by
  induction cs with
  | nil => rfl
  | cons c cs ih =>
    obtain ⟨hc, hcs⟩ := List.forall_mem_cons.mp h
    have hstep : b.step d c = some d := by rw [step, if_neg hc.1, if_neg hc.2]
    unfold after at ih ⊢
    rw [List.foldlM_cons, hstep]
    exact ih hcs

/-- Characters that are no brackets behind a text do not matter, nor do they in front of it. -/
theorem after_append_free {cs' : List Char} (h : ∀ c ∈ cs', c ≠ b.opening ∧ c ≠ b.closing) :
    b.after d (cs ++ cs') = b.after d cs := by
  cases hcs : b.after d cs with
  | some d' => rw [after_append hcs, after_free h]
  | none =>
    unfold after at hcs ⊢
    rw [List.foldlM_append, hcs]
    rfl

theorem after_free_append {cs' : List Char} (h : ∀ c ∈ cs, c ≠ b.opening ∧ c ≠ b.closing) :
    b.after d (cs ++ cs') = b.after d cs' :=
  after_append (after_free h)

namespace Turns

theorem of (h : b.after a s.toList = some x) : b.Turns s a x := by
  intro d
  rw [Nat.add_comm d a, Nat.add_comm d x]
  exact after_add h d

theorem trans (h : b.Turns s a x) (h' : b.Turns t x y) : b.Turns (s ++ t) a y := by
  intro d
  rw [String.toList_append, after_append (h d)]
  exact h' d

theorem keep (h : b.Turns s a x) (h' : b.Turns t 0 0) : b.Turns (s ++ t) a x := by
  intro d
  rw [String.toList_append, after_append (h d)]
  exact h' (d + x)

end Turns

theorem IsFree.turns (h : b.IsFree s) : b.Turns s 0 0 := fun _ => after_free h

theorem IsFree.append (hs : b.IsFree s) (ht : b.IsFree t) : b.IsFree (s ++ t) := by
  intro c hc
  rw [String.toList_append] at hc
  rcases List.mem_append.mp hc with hc | hc
  · exact hs c hc
  · exact ht c hc

theorem isFree_lineEnd : b.IsFree "\n" := by cases b <;> decide

theorem isFree_dotted {path : List String} (h : ∀ name ∈ path, b.IsFree name) : b.IsFree (dotted path) := by
  intro c hc
  rcases mem_dotted hc with rfl | ⟨name, hname, hc⟩
  · cases b <;> decide
  · exact h name hname c hc

theorem isFree_ofNat (n : Nat) : b.IsFree (Text.ofNat n) := by
  intro c hc
  have hdigit := Text.isDigit_ofNat hc
  constructor
  · rintro rfl
    cases b <;> cases hdigit
  · rintro rfl
    cases b <;> cases hdigit

theorem isFree_ofWord (v : Int32) : b.IsFree (Text.ofWord v) := by
  unfold Text.ofWord Int.repr
  split
  · exact isFree_ofNat _
  · exact IsFree.append (by cases b <;> decide) (isFree_ofNat _)

/-- A text that closes none of the brackets before it does not start with closing one. -/
theorem Turns.leading (h : b.Turns s 0 x) : b.leading s = 0 := by
  unfold Brackets.leading
  have h0 := h 0
  cases hs : s.toList with
  | nil => rfl
  | cons c cs =>
    have hc : c ≠ b.closing := by
      rintro rfl
      have hclose : b.step 0 b.closing = none := by cases b <;> rfl
      rw [hs, after, List.foldlM_cons, hclose] at h0
      cases h0
    rw [List.takeWhile_cons_of_neg (by simpa using hc)]
    rfl

namespace Indented

variable {ls ls' : List (Nat × String)} {d'' : Nat}

theorem append (h : b.Indented base d ls d') (h' : b.Indented base d' ls' d'') :
    b.Indented base d (ls ++ ls') d'' := by
  induction h with
  | nil => exact h'
  | cons hindent hs _ ih => exact .cons hindent hs (ih h')

/-- The brackets that are open around lines count as base. -/
theorem raise {k : Nat} (h : b.Indented (base + k) d ls d') : b.Indented base (d + k) ls (d' + k) := by
  induction h with
  | nil => exact .nil
  | cons hindent hs _ ih =>
    refine .cons ?_ (after_add hs k) ih
    rw [hindent]
    omega

theorem opens (hs : b.Turns s 0 x) (h : b.Indented base (d + x) ls d') :
    b.Indented base d ((base + d, s) :: ls) d' :=
  .cons (by rw [hs.leading, Nat.add_zero]) (hs d) h

theorem closes (hs : b.Turns s 1 x) (hl : b.leading s = 1) (h : b.Indented base (d + x) ls d') :
    b.Indented base (d + 1) ((base + d, s) :: ls) d' :=
  .cons (by rw [hl]; rfl) (hs d) h

theorem all (h : ∀ l ∈ ls, l.1 = base + d ∧ b.Turns l.2 0 0) : b.Indented base d ls d := by
  induction ls with
  | nil => exact .nil
  | cons l ls ih =>
    obtain ⟨⟨hl, hs⟩, hls⟩ := List.forall_mem_cons.mp h
    exact .cons (by rw [hl, hs.leading, Nat.add_zero]) (hs d) (ih hls)

/-- Lines are a text that ends with as many brackets open, where each line has no others around its content. -/
theorem after_flatMap {α : Type} {xs : List α} {line : α → Nat × String} {text : α → List Char}
    (hx : ∀ x d, b.after d (text x) = b.after d (line x).2.toList) (h : b.Indented base d (xs.map line) d') :
    b.after d (xs.flatMap text) = some d' := by
  induction xs generalizing d with
  | nil =>
    cases h
    rfl
  | cons x xs ih =>
    cases h with
    | cons _ hs h =>
      rw [List.flatMap_cons, after_append ((hx x d).trans hs)]
      exact ih h

end Indented

end Brackets

end PLZero
