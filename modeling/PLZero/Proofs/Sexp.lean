import PLZero.Sexp

/-! Texts of words, quoted texts and lists, read back. The text of an expression has the lexemes of the
expression, whatever comes behind it, and these are put together to the expression again. -/

namespace PLZero

namespace Sexp

/-- The lexemes of a text. -/
def scanned : Begun → List Char → List Lexeme
  | b, [] => b.last
  | b, c :: cs => (step b c).1 ++ scanned (step b c).2 cs

theorem scan_eq (found : List Lexeme) (b : Begun) (cs : List Char) :
    scan found b cs = found.reverse ++ scanned b cs := by
  induction cs generalizing found b with
  | nil => cases b <;> simp [scan, scanned, Begun.last]
  | cons c cs ih => simp [scan, scanned, ih]

mutual

def lexemes : Sexp → List Lexeme
  | .word text => [.word text]
  | .quoted text => [.quoted text]
  | .list items => .opening :: lexemesAll items ++ [.closing]

def lexemesAll : List Sexp → List Lexeme
  | [] => []
  | x :: xs => x.lexemes ++ lexemesAll xs

end

mutual

def text : Sexp → String
  | .word text => text
  | .quoted text => "\"" ++ text ++ "\""
  | .list items => "(" ++ textAll items ++ ")"

def textAll : List Sexp → String
  | [] => ""
  | [x] => x.text
  | x :: y :: rest => x.text ++ " " ++ textAll (y :: rest)

end

mutual

/-- Every text in the expression can be read back. -/
def Clean : Sexp → Prop
  | .word text => text ≠ "" ∧ ∀ c ∈ text.toList, isWordChar c = true
  | .quoted text => ∀ c ∈ text.toList, isPlainChar c = true
  | .list items => CleanAll items

def CleanAll : List Sexp → Prop
  | [] => True
  | x :: xs => x.Clean ∧ CleanAll xs

end

mutual

theorem build_lexemes (x : Sexp) (items : List Sexp) (stack : List (List Sexp)) (ls : List Lexeme) :
    build (items :: stack) (x.lexemes ++ ls) = build ((x :: items) :: stack) ls := by
  match x with
  | .word text => cases stack <;> rfl
  | .quoted text => cases stack <;> rfl
  | .list xs =>
    have hopen : build (items :: stack) (lexemes (.list xs) ++ ls) =
        build ([] :: items :: stack) (lexemesAll xs ++ .closing :: ls) := by
      simp [lexemes, build]
    rw [hopen, build_lexemesAll xs, build, List.append_nil, List.reverse_reverse]

theorem build_lexemesAll (xs items : List Sexp) (stack : List (List Sexp)) (ls : List Lexeme) :
    build (items :: stack) (lexemesAll xs ++ ls) = build ((xs.reverse ++ items) :: stack) ls := by
  match xs with
  | [] => rfl
  | x :: xs =>
    rw [lexemesAll, List.append_assoc, build_lexemes x, build_lexemesAll xs, List.reverse_cons, List.append_assoc,
      List.singleton_append]

end

theorem lexemesAll_append (xs ys : List Sexp) : lexemesAll (xs ++ ys) = lexemesAll xs ++ lexemesAll ys := by
  induction xs with
  | nil => rfl
  | cons x xs ih => rw [List.cons_append, lexemesAll, ih, lexemesAll, List.append_assoc]

/-- In front of a character of no word, the text is read as these lexemes. -/
def Lexes (text : String) (ls : List Lexeme) : Prop :=
  ∀ d rest, isWordChar d = false → scanned .nothing (text.toList ++ d :: rest) = ls ++ scanned .nothing (d :: rest)

theorem scan_word {cs : List Char} (h : ∀ c ∈ cs, isWordChar c = true) (text : List Char) (d : Char) (rest : List Char)
    (hd : isWordChar d = false) :
    scanned (.word text) (cs ++ d :: rest) = .word (.ofList (text ++ cs)) :: scanned .nothing (d :: rest) := by
  induction cs generalizing text with
  | nil => simp [scanned, step, hd]
  | cons c cs ih =>
    rw [List.cons_append, scanned, step, if_pos (h c (by simp)), ih (fun c hc => h c (by simp [hc]))]
    simp

theorem scan_quoted {cs : List Char} (h : ∀ c ∈ cs, isPlainChar c = true) (text rest : List Char) :
    scanned (.quoted text) (cs ++ '"' :: rest) = .quoted (.ofList (text ++ cs)) :: scanned .nothing rest := by
  induction cs generalizing text with
  | nil => simp [scanned, step]
  | cons c cs ih =>
    have hc := h c (by simp)
    have hquote : c ≠ '"' := by
      rintro rfl
      revert hc
      decide
    rw [List.cons_append, scanned, step, if_neg hquote, if_pos hc, ih (fun c hc => h c (by simp [hc]))]
    simp

theorem scan_opening (cs : List Char) : scanned .nothing ('(' :: cs) = .opening :: scanned .nothing cs := rfl

theorem scan_closing (cs : List Char) : scanned .nothing (')' :: cs) = .closing :: scanned .nothing cs := rfl

theorem scan_blank (cs : List Char) : scanned .nothing (' ' :: cs) = scanned .nothing cs := rfl

theorem scan_lineEnd (cs : List Char) : scanned .nothing ('\n' :: cs) = scanned .nothing cs := rfl

theorem scan_quote (cs : List Char) : scanned .nothing ('"' :: cs) = scanned (.quoted []) cs := rfl

mutual

theorem lexes_text (x : Sexp) (h : x.Clean) : Lexes x.text x.lexemes := by
  intro d rest hd
  match x with
  | .word text =>
    obtain ⟨hne, hchars⟩ := h
    cases hcs : text.toList with
    | nil => exact absurd (String.toList_eq_nil_iff.mp hcs) hne
    | cons c cs =>
      rw [hcs] at hchars
      have htext : String.ofList (c :: cs) = text := by rw [← hcs, String.ofList_toList]
      rw [Sexp.text, hcs, List.cons_append, scanned, step, start, if_pos (hchars c (by simp)), List.nil_append,
        scan_word (fun c hc => hchars c (by simp [hc])) _ _ _ hd, List.singleton_append, htext]
      rfl
  | .quoted text =>
    have hcs : (Sexp.text (.quoted text)).toList ++ d :: rest = '"' :: (text.toList ++ '"' :: d :: rest) := by
      simp [Sexp.text]
    rw [hcs, scan_quote, scan_quoted h, List.nil_append, String.ofList_toList]
    rfl
  | .list items =>
    have hcs : (Sexp.text (.list items)).toList ++ d :: rest = '(' :: ((textAll items).toList ++ ')' :: d :: rest) := by
      simp [Sexp.text]
    rw [hcs, scan_opening, lexes_textAll items h ')' _ rfl, scan_closing]
    simp [lexemes]

theorem lexes_textAll (xs : List Sexp) (h : CleanAll xs) : Lexes (textAll xs) (lexemesAll xs) := by
  intro d rest hd
  match xs with
  | [] => rfl
  | [x] =>
    rw [textAll, lexes_text x h.1 d rest hd, lexemesAll, lexemesAll, List.append_nil]
  | x :: y :: ys =>
    have hcs : (textAll (x :: y :: ys)).toList ++ d :: rest =
        x.text.toList ++ ' ' :: ((textAll (y :: ys)).toList ++ d :: rest) := by
      simp [textAll]
    have hls : lexemesAll (x :: y :: ys) = x.lexemes ++ lexemesAll (y :: ys) := rfl
    rw [hcs, lexes_text x h.1 ' ' _ rfl, scan_blank, lexes_textAll (y :: ys) h.2 d rest hd, hls, List.append_assoc]

end

/-- The head of a list whose other items stand on further lines. -/
theorem lexes_head {xs : List Sexp} (h : CleanAll xs) : Lexes ("(" ++ textAll xs) (.opening :: lexemesAll xs) := by
  intro d rest hd
  have hcs : ("(" ++ textAll xs).toList ++ d :: rest = '(' :: ((textAll xs).toList ++ d :: rest) := by simp
  rw [hcs, scan_opening, lexes_textAll xs h d rest hd, List.cons_append]

theorem lexes_closing : Lexes ")" [.closing] := fun _ _ _ => rfl

theorem ofText?_of_scan {text : String} {x : Sexp} (h : scanned .nothing text.toList = x.lexemes) :
    ofText? text = some x := by
  have hbuild := build_lexemes x [] [] []
  rw [List.append_nil] at hbuild
  rw [ofText?, scan_eq, List.reverse_nil, List.nil_append, h, hbuild]
  rfl

end Sexp

end PLZero
