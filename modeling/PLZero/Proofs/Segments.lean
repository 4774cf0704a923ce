import PLZero.Token.Scan
import Mathlib.Data.List.Infix
import Mathlib.Data.List.TakeWhile
import Mathlib.Order.Nat
import Mathlib.Tactic.SplitIfs

/-! The segments of a source text. A text can be cut in one way only into line ends, blanks,
comments, lexemes that are as long as possible and single characters that start none of these. -/

namespace PLZero

/-- A part of a text, by the characters that it covers. -/
inductive Segment
  | newline
  | blank (c : Char)
  | comment (text : List Char)
  | lexeme (kind : TokenKind) (text : List Char)
  | stray (c : Char)
  deriving DecidableEq, Repr

/-- A letter, then letters and digits. -/
def IsWord (name : String) : Prop :=
  ∃ c cs, name.toList = c :: cs ∧ c.isAlpha = true ∧ cs.all Char.isAlphanum = true

namespace Segment

open Piece (isSpace wordKind)

def chars : Segment → List Char
  | newline => ['\n']
  | blank c => [c]
  | comment text => text
  | lexeme _ text => text
  | stray c => [c]

/-- The lexemes that are neither words nor numbers. -/
def symbols : List (TokenKind × List Char) :=
  [(.comma, [',']), (.semicolon, [';']), (.period, ['.']), (.parenthesis, ['(']), (.parenthesis, [')']),
   (.operator, ['+']), (.operator, ['-']), (.operator, ['*']), (.operator, ['/']), (.operator, ['=']),
   (.operator, ['<']), (.operator, ['<', '=']), (.operator, ['<', '>']), (.operator, ['>']),
   (.operator, ['>', '=']), (.assign, [':', '='])]

/-- Blanks on a line: space, tab, form feed and carriage return. -/
def blanks : List Char := [' ', '\t', '\x0c', '\r']

def whitespace : List Char := '\n' :: blanks

/-- The texts that are one lexeme. -/
inductive IsLexeme : TokenKind → List Char → Prop
  | number {c : Char} {cs : List Char} (hc : c.isDigit = true) (hcs : ∀ d ∈ cs, d.isDigit = true) :
    IsLexeme .number (c :: cs)
  | word {c : Char} {cs : List Char} (hc : c.isAlpha = true) (hcs : ∀ d ∈ cs, d.isAlphanum = true) :
    IsLexeme (if String.ofList (c :: cs) ∈ keywords then .keyword else .identifier) (c :: cs)
  | symbol {kind : TokenKind} {text : List Char} (h : (kind, text) ∈ symbols) : IsLexeme kind text

namespace IsLexeme

variable {kind : TokenKind} {c : Char} {cs text : List Char}

theorem ne_nil (h : IsLexeme kind text) : text ≠ [] := by
  cases h with
  | number => simp
  | word => simp
  | symbol h =>
    have hsymbols : ∀ e ∈ symbols, e.2 ≠ [] := by decide
    exact hsymbols _ h

theorem kind_ne_eof (h : IsLexeme kind text) : kind ≠ .eof := by
  cases h with
  | number => simp
  | word => split <;> simp
  | symbol h =>
    have hsymbols : ∀ e ∈ symbols, e.1 ≠ .eof := by decide
    exact hsymbols _ h

/-- No lexeme has white space in it. -/
theorem white_not_mem (h : IsLexeme kind text) (hc : c ∈ whitespace) : c ∉ text := by
  have hword : whitespace.all (!·.isAlphanum) = true := by decide
  have hc' : c.isAlphanum = false := by simpa using List.all_eq_true.mp hword c hc
  intro hmem
  cases h with
  | @number d ds hd hds =>
    have hdigits : ∀ x ∈ d :: ds, x.isDigit = true := List.forall_mem_cons.mpr ⟨hd, hds⟩
    simp [Char.isAlphanum, hdigits c hmem] at hc'
  | @word d ds hd hds =>
    have hletters : ∀ x ∈ d :: ds, x.isAlphanum = true :=
      List.forall_mem_cons.mpr ⟨by simp [Char.isAlphanum, hd], hds⟩
    simp [hletters c hmem] at hc'
  | symbol h =>
    have hsymbols : ∀ e ∈ symbols, whitespace.all (· ∉ e.2) = true := by decide
    simpa [hmem] using List.all_eq_true.mp (hsymbols _ h) c hc

theorem newline_not_mem (h : IsLexeme kind text) : '\n' ∉ text := h.white_not_mem (by simp [whitespace])

theorem not_isAlpha_of_isDigit (h : c.isDigit = true) : c.isAlpha = false := by
  delta Char.isAlpha Char.isUpper Char.isLower
  delta Char.isDigit at h
  simp only [Bool.and_eq_true, decide_eq_true_eq, Bool.or_eq_false_iff, Bool.and_eq_false_iff,
    decide_eq_false_iff_not, ge_iff_le, UInt32.le_iff_toNat_le] at h ⊢
  have hdigits : '0'.val.toNat = 48 ∧ '9'.val.toNat = 57 := by decide
  have hletters : 'A'.val.toNat = 65 ∧ 'a'.val.toNat = 97 := by decide
  omega

theorem symbol_not_isAlphanum (h : (kind, c :: cs) ∈ symbols) : c.isDigit = false ∧ c.isAlpha = false := by
  have hsymbols : ∀ e ∈ symbols, e.2.head?.all (fun d => !d.isDigit && !d.isAlpha) = true := by decide
  simpa using hsymbols _ h

theorem of_isDigit (h : IsLexeme kind (c :: cs)) (hc : c.isDigit = true) :
    kind = .number ∧ ∀ d ∈ cs, d.isDigit = true := by
  cases h with
  | number _ hcs => exact ⟨rfl, hcs⟩
  | word ha => simp [not_isAlpha_of_isDigit hc] at ha
  | symbol h => simp [symbol_not_isAlphanum h] at hc

theorem of_isAlpha (h : IsLexeme kind (c :: cs)) (hc : c.isAlpha = true) :
    kind = wordKind (String.ofList (c :: cs)) ∧ ∀ d ∈ cs, d.isAlphanum = true := by
  cases h with
  | number hd => simp [not_isAlpha_of_isDigit hd] at hc
  | word _ hcs => exact ⟨rfl, hcs⟩
  | symbol h => simp [symbol_not_isAlphanum h] at hc

theorem identifier (h : IsLexeme .identifier text) :
    IsWord (String.ofList text) ∧ String.ofList text ∉ keywords := by
  generalize hkind : TokenKind.identifier = kind at h
  cases h with
  | number => cases hkind
  | @word c cs hc hcs =>
    refine ⟨⟨c, cs, String.toList_ofList, hc, List.all_eq_true.mpr hcs⟩, fun hkeyword => ?_⟩
    rw [if_pos hkeyword] at hkind
    cases hkind
  | symbol h =>
    have hsymbols : ∀ e ∈ symbols, e.1 ≠ .identifier := by decide
    exact absurd hkind.symm (hsymbols _ h)

theorem of_not_isAlphanum (h : IsLexeme kind (c :: cs)) (hd : c.isDigit = false) (ha : c.isAlpha = false) :
    (kind, c :: cs) ∈ symbols := by
  cases h with
  | number hc => simp [hd] at hc
  | word hc => simp [ha] at hc
  | symbol h => exact h

/-- A lexeme of `n` characters starts at `cs`. -/
def HasLength (cs : List Char) (n : Nat) : Prop :=
  ∃ kind text, IsLexeme kind text ∧ text <+: cs ∧ text.length = n

/-- Where a lexeme starts there is a longest one. -/
theorem exists_longest (h : IsLexeme kind text) (hfront : text <+: cs) :
    ∃ kind text, IsLexeme kind text ∧ text <+: cs ∧
      ∀ kind' text', IsLexeme kind' text' → text' <+: cs → text'.length ≤ text.length := by
  classical
  have hgreatest : HasLength cs (Nat.findGreatest (HasLength cs) cs.length) :=
    Nat.findGreatest_spec hfront.length_le ⟨kind, text, h, hfront, rfl⟩
  obtain ⟨kind, text, hlex, hfront, hlen⟩ := hgreatest
  refine ⟨kind, text, hlex, hfront, ?_⟩
  intro kind' text' hlex' hfront'
  rw [hlen]
  exact Nat.le_findGreatest hfront'.length_le ⟨kind', text', hlex', hfront', rfl⟩

end IsLexeme

/-- What a segment is in front of the text `rest`. A comment goes to the end of its line, no longer lexeme starts where
one starts, and at the stray characters none starts at all. -/
def Stands (rest : List Char) : Segment → Prop
  | newline => True
  | blank c => c ∈ blanks
  | comment text => ['/', '/'] <+: text ∧ '\n' ∉ text ∧ (rest = [] ∨ rest.head? = some '\n')
  | lexeme kind text => IsLexeme kind text ∧ ¬ ['/', '/'] <+: text ++ rest ∧
    ∀ kind' text', IsLexeme kind' text' → text' <+: text ++ rest → text'.length ≤ text.length
  | stray c => c ≠ '\n' ∧ c ∉ blanks ∧ ∀ kind text, IsLexeme kind text → ¬ text <+: c :: rest

/-- Every segment is what it is in front of those behind it. -/
def Cut : List Segment → Prop
  | [] => True
  | s :: rest => s.Stands (rest.flatMap chars) ∧ Cut rest

theorem newline_not_blank : '\n' ∉ blanks := by decide

theorem isSpace_iff (c : Char) : isSpace c = true ↔ c ∈ blanks := by
  have hfeed : c.toNat = 12 ↔ c = '\x0c' := by
    rw [← Char.toNat_inj]
    rfl
  simp only [isSpace, blanks, Bool.or_eq_true, beq_iff_eq, hfeed, List.mem_cons, List.not_mem_nil, or_false]
  tauto

/-- No lexeme starts like a line end or a blank. -/
theorem head_of_lexeme {kind : TokenKind} {c : Char} {cs : List Char} (h : IsLexeme kind (c :: cs)) :
    c ≠ '\n' ∧ isSpace c = false := by
  have hwhite : c ∉ whitespace := fun hc => h.white_not_mem hc List.mem_cons_self
  rw [whitespace, List.mem_cons, not_or, ← isSpace_iff] at hwhite
  exact ⟨hwhite.1, by simpa using hwhite.2⟩

/-- A run of characters in front of `rest` is the whole run when no longer one is possible. -/
theorem run_of_longest {p : Char → Bool} {cs rest : List Char} (hcs : ∀ d ∈ cs, p d = true)
    (hmax : ((cs ++ rest).takeWhile p).length ≤ cs.length) :
    (cs ++ rest).takeWhile p = cs ∧ (cs ++ rest).dropWhile p = rest := by
  rw [List.takeWhile_append_of_pos hcs] at hmax ⊢
  rw [List.dropWhile_append_of_pos hcs]
  have hnil : rest.takeWhile p = [] := List.eq_nil_of_length_eq_zero (by rw [List.length_append] at hmax; omega)
  have hdrop := List.takeWhile_append_dropWhile (p := p) (l := rest)
  rw [hnil] at hdrop ⊢
  exact ⟨List.append_nil cs, hdrop⟩

section First

variable {kind : TokenKind} {c : Char} {cs rest : List Char}

theorem slashes_iff : ['/', '/'] <+: c :: cs ↔ c = '/' ∧ cs.head? = some '/' := by
  cases cs <;> simp [List.cons_prefix_cons, eq_comm]

/-- A symbol is taken by itself unless it and the next character are one. -/
theorem symbol_spec (c : Char) (next : Option Char) :
    match Piece.symbol c next with
    | some (kind, false) => (kind, [c]) ∈ symbols ∧ ∀ d ∈ next, ∀ e ∈ symbols, e.2 ≠ [c, d]
    | some (kind, true) => ∃ d, next = some d ∧ (kind, [c, d]) ∈ symbols
    | none => ∀ e ∈ symbols, e.2 ≠ [c] ∧ ∀ d ∈ next, e.2 ≠ [c, d] := by
  generalize hs : Piece.symbol c next = s
  unfold Piece.symbol at hs
  split at hs
  all_goals
    subst hs
    simp [symbols]
  -- what is left is that the patterns before do not fit
  all_goals grind

theorem prefix_of_symbol {e : TokenKind × List Char} (he : e ∈ symbols) :
    e.2 <+: c :: rest ↔ e.2 = [c] ∨ ∃ d, rest.head? = some d ∧ e.2 = [c, d] := by
  have hshort : e.2 ≠ [] ∧ e.2.length ≤ 2 := by
    have hall : ∀ e ∈ symbols, e.2 ≠ [] ∧ e.2.length ≤ 2 := by decide
    exact hall e he
  rcases e with ⟨kind, _ | ⟨a, _ | ⟨b, _ | _⟩⟩⟩
  · simp at hshort
  · simp [List.cons_prefix_cons]
  · cases rest <;> simp [List.cons_prefix_cons, eq_comm]
  · simp at hshort

/-- Some segment stands at the front of every text. -/
theorem exists_stands (c : Char) (cs : List Char) :
    ∃ (s : Segment) (rest : List Char), s.chars ++ rest = c :: cs ∧ s.Stands rest := by
  by_cases hnewline : c = '\n'
  · exact ⟨newline, cs, by simp [chars, hnewline], trivial⟩
  by_cases hblank : c ∈ blanks
  · exact ⟨blank c, cs, rfl, hblank⟩
  by_cases hslashes : ['/', '/'] <+: c :: cs
  · obtain ⟨rest, hrest⟩ := hslashes
    refine ⟨comment ((c :: cs).takeWhile (· != '\n')), (c :: cs).dropWhile (· != '\n'),
      List.takeWhile_append_dropWhile, ?_, ?_, ?_⟩
    · rw [← hrest]
      exact ⟨rest.takeWhile (· != '\n'), by simp⟩
    · intro hmem
      simpa using List.mem_takeWhile_imp hmem
    · cases hd : (c :: cs).dropWhile (· != '\n') with
      | nil => exact .inl rfl
      | cons d tail =>
        have hhead := List.head?_dropWhile_not (· != '\n') (c :: cs)
        rw [hd] at hhead
        exact .inr (by simpa using hhead)
  by_cases hlexeme : ∃ kind text, IsLexeme kind text ∧ text <+: c :: cs
  · obtain ⟨kind, text, hlex, hfront⟩ := hlexeme
    obtain ⟨kind, text, hlex, ⟨rest, hrest⟩, hmax⟩ := hlex.exists_longest hfront
    refine ⟨lexeme kind text, rest, hrest, hlex, ?_, ?_⟩
    · rwa [hrest]
    · rwa [hrest]
  · refine ⟨stray c, cs, rfl, hnewline, hblank, ?_⟩
    intro kind text hlex hfront
    exact hlexeme ⟨kind, text, hlex, hfront⟩

theorem Stands.chars_ne_nil {s : Segment} (h : s.Stands rest) : s.chars ≠ [] := by
  cases s with
  | newline => simp [chars]
  | blank c => simp [chars]
  | comment text => exact h.1.ne_nil (by simp)
  | lexeme kind text => exact h.1.ne_nil
  | stray c => simp [chars]

/-- Every text can be cut. -/
theorem exists_cut (cs : List Char) :
    ∃ segments : List Segment, segments.flatMap chars = cs ∧ Cut segments := by
  induction hn : cs.length using Nat.strong_induction_on generalizing cs with
  | _ n ih =>
    cases cs with
    | nil => exact ⟨[], rfl, trivial⟩
    | cons c cs =>
      obtain ⟨s, rest, htext, hs⟩ := exists_stands c cs
      have hpos := List.length_pos_iff.mpr hs.chars_ne_nil
      have hlen := congrArg List.length htext
      rw [List.length_append] at hlen
      obtain ⟨segments, rfl, hcut⟩ := ih rest.length (by omega) rest rfl
      exact ⟨s :: segments, htext, hs, hcut⟩

end First

end Segment

end PLZero
