import PLZero.Proofs.Pieces

/-! Lexemes with separators between them. Where white space stands behind a lexeme, the scan finds that lexeme whatever
comes next: no lexeme has white space in it, so none can be longer, and no comment can start in the middle. -/

namespace PLZero

def Token.content (t : Token) : TokenKind × String := (t.kind, t.text)

/-- The texts of tokens with a blank between any two. -/
def Token.joined (ts : List Token) : String := " ".intercalate (ts.map (·.text))

namespace Segment

/-- Text without lexemes: white space, and comments up to the line ends behind them. -/
inductive IsFill : List Char → Prop
  | nil : IsFill []
  | white {c : Char} {cs : List Char} (hc : c ∈ whitespace) (h : IsFill cs) : IsFill (c :: cs)
  | comment {text cs : List Char} (htext : '\n' ∉ text) (h : IsFill cs) :
    IsFill ('/' :: '/' :: (text ++ '\n' :: cs))

/-- A lexeme and what separates it from the next one: white space first, then any text without lexemes. -/
structure Spaced where
  kind : TokenKind
  text : List Char
  space : Char
  fill : List Char
  lexeme : IsLexeme kind text
  white : space ∈ whitespace
  silent : IsFill fill

namespace Spaced

def chars (i : Spaced) : List Char := i.text ++ i.space :: i.fill

/-- The tokens of spaced lexemes the first of which stands on `line`, each on the line that the line ends before it
give. -/
def tokens (line : Nat) (items : List Spaced) : List Token :=
  items.mapIdx fun k i => ⟨i.kind, String.ofList i.text, line + ((items.take k).flatMap chars).count '\n'⟩

theorem tokens_cons (line : Nat) (i : Spaced) (items : List Spaced) :
    tokens line (i :: items) =
      ⟨i.kind, String.ofList i.text, line⟩ :: tokens (line + i.chars.count '\n') items := by
  simp only [tokens, List.mapIdx_cons, List.take_zero, List.flatMap_nil, List.count_nil, List.take_succ_cons,
    List.flatMap_cons, List.count_append, Nat.add_zero, Nat.add_assoc]

/-- The kinds and texts of the tokens are those of the lexemes, wherever these stand. -/
theorem tokens_content (line : Nat) (items : List Spaced) :
    (tokens line items).map Token.content = items.map fun i => (i.kind, String.ofList i.text) := by
  induction items generalizing line with
  | nil => rfl
  | cons i items ih => rw [tokens_cons, List.map_cons, ih, List.map_cons, Token.content]

/-- Tokens that are lexemes, with a blank behind each. -/
theorem exists_of_tokens {ts : List Token} (hts : ∀ t ∈ ts, IsLexeme t.kind t.text.toList) :
    ∃ items : List Spaced, items.flatMap chars = ts.flatMap (fun t => t.text.toList ++ [' ']) ∧
      (items.map fun i => (i.kind, String.ofList i.text)) = ts.map Token.content := by
  induction ts with
  | nil => exact ⟨[], rfl, rfl⟩
  | cons t ts ih =>
    obtain ⟨ht, hts⟩ := List.forall_mem_cons.mp hts
    obtain ⟨items, htext, hwords⟩ := ih hts
    refine ⟨⟨t.kind, t.text.toList, ' ', [], ht, by decide, .nil⟩ :: items, ?_, ?_⟩
    · rw [List.flatMap_cons, htext, List.flatMap_cons]
      rfl
    · rw [List.map_cons, hwords, List.map_cons, String.ofList_toList, Token.content]

end Spaced

section

variable {kind : TokenKind} {text rest : List Char}

theorem IsLexeme.no_comment (h : IsLexeme kind text) : ¬ ['/', '/'] <+: text := by
  rintro ⟨tail, rfl⟩
  cases h with
  | number hc => exact absurd hc (by decide)
  | word hc => exact absurd hc (by decide)
  | symbol h =>
    have hsymbols : ∀ e ∈ symbols, ¬ ['/', '/'] <+: e.2 := by decide
    exact hsymbols _ h ⟨tail, rfl⟩

/-- What starts at a text without white space and is free of it itself does not go beyond the text when white space or
nothing follows. -/
theorem prefix_of_white {front : List Char} (hrest : ∀ c ∈ rest.head?, c ∈ whitespace)
    (hfront : ∀ c ∈ whitespace, c ∉ front) (h : front <+: text ++ rest) : front <+: text := by
  rcases List.prefix_or_prefix_of_prefix h (List.prefix_append text rest) with hle | ⟨more, rfl⟩
  · exact hle
  · cases more with
    | nil => simp
    | cons c more =>
      obtain ⟨tail, htail⟩ := (List.prefix_append_right_inj text).mp h
      have hc : c ∈ whitespace := hrest c (by simp [← htail])
      exact absurd (by simp) (hfront c hc)

/-- A lexeme stands wherever white space or nothing follows it. -/
theorem IsLexeme.stands (h : IsLexeme kind text) (hrest : ∀ c ∈ rest.head?, c ∈ whitespace) :
    (Segment.lexeme kind text).Stands rest := by
  refine ⟨h, fun hslashes => ?_, fun kind' text' h' hfront => ?_⟩
  · have hwhite : whitespace.all (· ∉ ['/', '/']) = true := by decide
    have hfront := prefix_of_white hrest (fun c hc => by simpa using List.all_eq_true.mp hwhite c hc) hslashes
    exact h.no_comment hfront
  · exact (prefix_of_white hrest (fun c hc => h'.white_not_mem hc) hfront).length_le

theorem ofBytes_of_stands (s : Segment) (h : s.Stands rest) :
    Piece.ofBytes (Text.encode (s.chars ++ rest)) = s.piece :: Piece.ofBytes (Text.encode rest) := by
  obtain ⟨segments, rfl, hcut⟩ := exists_cut rest
  have hall : Cut (s :: segments) := ⟨h, hcut⟩
  rw [ofBytes_of_cut hcut, ← List.flatMap_cons, ofBytes_of_cut hall, List.map_cons]

end

end Segment

open Segment

namespace Scan

variable {ts : List Token}

/-- The scan of a text that starts on `line`. -/
def ofText (line : Nat) (cs : List Char) : Scan := ofPieces line (Piece.ofBytes (Text.encode cs))

variable {rest : List Char} {line : Nat}

theorem ofText_of_stands (s : Segment) (h : s.Stands rest) :
    ofText line (s.chars ++ rest) = ofPieces line (s.piece :: Piece.ofBytes (Text.encode rest)) := by
  rw [ofText, ofBytes_of_stands s h]

theorem ofText_white {c : Char} (hc : c ∈ whitespace) :
    ofText line (c :: rest) = ofText (line + [c].count '\n') rest := by
  rcases List.mem_cons.mp hc with rfl | hblank
  · exact ofText_of_stands .newline trivial
  · have hne : c ≠ '\n' := fun heq => newline_not_blank (heq ▸ hblank)
    have hcount : [c].count '\n' = 0 := List.count_eq_zero_of_not_mem (by simpa using hne.symm)
    rw [hcount]
    exact ofText_of_stands (.blank c) hblank

theorem ofText_comment {text : List Char} (htext : '\n' ∉ text) :
    ofText line ('/' :: '/' :: (text ++ '\n' :: rest)) = ofText line ('\n' :: rest) :=
  ofText_of_stands (.comment ('/' :: '/' :: text)) ⟨⟨text, rfl⟩, by simpa using htext, .inr rfl⟩

/-- Text without lexemes adds its line ends and nothing else. -/
theorem ofText_fill {cs : List Char} (h : IsFill cs) :
    ofText line (cs ++ rest) = ofText (line + cs.count '\n') rest := by
  induction h generalizing line with
  | nil => rfl
  | @white c cs hc _ ih =>
    have hcount : (c :: cs).count '\n' = [c].count '\n' + cs.count '\n' := by
      rw [← List.count_append, List.singleton_append]
    rw [List.cons_append, ofText_white hc, ih, hcount, Nat.add_assoc]
  | @comment text cs htext _ ih =>
    have hcount : ('/' :: '/' :: (text ++ '\n' :: cs)).count '\n' = ['\n'].count '\n' + cs.count '\n' := by
      have hfront : ('/' :: '/' :: text).count '\n' = 0 := List.count_eq_zero_of_not_mem (by simpa using htext)
      rw [← List.cons_append, ← List.cons_append, List.count_append, hfront, Nat.zero_add, ← List.count_append,
        List.singleton_append]
    have hcomment : '/' :: '/' :: (text ++ '\n' :: cs) ++ rest = '/' :: '/' :: (text ++ '\n' :: (cs ++ rest)) := by
      simp
    rw [hcomment, ofText_comment htext, ofText_white List.mem_cons_self, ih, hcount, Nat.add_assoc]

theorem ofText_lexeme {kind : TokenKind} {text : List Char} (h : IsLexeme kind text)
    (hrest : ∀ c ∈ rest.head?, c ∈ whitespace) :
    ofText line (text ++ rest) =
      { ofText line rest with tokens := ⟨kind, String.ofList text, line⟩ :: (ofText line rest).tokens } := by
  refine (ofText_of_stands (.lexeme kind text) (h.stands hrest)).trans ?_
  rw [piece, ofPieces, Text.lossy_encode]
  rfl

/-- Spaced lexemes are scanned one by one, whatever follows them. -/
theorem ofText_spaced (items : List Spaced) :
    ofText line (items.flatMap Spaced.chars ++ rest) =
      ⟨Spaced.tokens line items ++ (ofText (line + (items.flatMap Spaced.chars).count '\n') rest).tokens,
        (ofText (line + (items.flatMap Spaced.chars).count '\n') rest).warnings⟩ := by
  induction items generalizing line with
  | nil => rfl
  | cons i items ih =>
    have hlines : i.chars.count '\n' = [i.space].count '\n' + i.fill.count '\n' := by
      rw [Spaced.chars, List.count_append, List.count_eq_zero_of_not_mem i.lexeme.newline_not_mem, Nat.zero_add,
        ← List.count_append, List.singleton_append]
    have hitem : ofText line (i.chars ++ (items.flatMap Spaced.chars ++ rest)) =
        { ofText (line + i.chars.count '\n') (items.flatMap Spaced.chars ++ rest) with
          tokens := ⟨i.kind, String.ofList i.text, line⟩ ::
            (ofText (line + i.chars.count '\n') (items.flatMap Spaced.chars ++ rest)).tokens } := by
      have hwhite : ∀ c ∈ (i.space :: (i.fill ++ (items.flatMap Spaced.chars ++ rest))).head?, c ∈ whitespace := by
        simpa using i.white
      rw [Spaced.chars, List.append_assoc, List.cons_append, ofText_lexeme i.lexeme hwhite, ofText_white i.white,
        ofText_fill i.silent, Nat.add_assoc, ← hlines, Spaced.chars]
    rw [List.flatMap_cons, List.append_assoc, hitem, ih, Spaced.tokens_cons, List.count_append, Nat.add_assoc]
    rfl

example : ofText 1 ['<', ' ', '/', '/', '=', 'é', '\n', '=', '\t', 'x', '1', '\n'] =
    ⟨[⟨.operator, "<", 1⟩, ⟨.operator, "=", 2⟩, ⟨.identifier, "x1", 2⟩, ⟨.eof, "", 3⟩], []⟩ := by
  decide +kernel

/-- Tokens that are lexemes, with a blank behind each, are scanned again in front of what follows them. -/
theorem ofText_tokens (hts : ∀ t ∈ ts, IsLexeme t.kind t.text.toList) (line : Nat)
    (rest : List Char) : ∃ line',
      (ofText line (ts.flatMap (fun t => t.text.toList ++ [' ']) ++ rest)).tokens.map Token.content =
        ts.map Token.content ++ (ofText line' rest).tokens.map Token.content ∧
      (ofText line (ts.flatMap (fun t => t.text.toList ++ [' ']) ++ rest)).warnings = (ofText line' rest).warnings := by
  obtain ⟨items, htext, hwords⟩ := Spaced.exists_of_tokens hts
  refine ⟨line + (items.flatMap Spaced.chars).count '\n', ?_⟩
  rw [← htext, ofText_spaced items, List.map_append, Spaced.tokens_content, hwords]
  exact ⟨rfl, rfl⟩

/-- Joined by blanks, all texts but the last have a blank behind them. -/
theorem toList_joined (ts : List Token) (last : Token) :
    (Token.joined (ts ++ [last])).toList = ts.flatMap (fun t => t.text.toList ++ [' ']) ++ last.text.toList := by
  rw [Token.joined, String.toList_intercalate]
  induction ts with
  | nil => simp
  | cons t ts ih =>
    obtain ⟨u, us, hus⟩ : ∃ u us, ts ++ [last] = u :: us := List.exists_cons_of_ne_nil (by simp)
    rw [hus] at ih
    rw [List.cons_append, hus, List.map_cons, List.map_cons, List.map_cons, List.map_cons, List.intercalate_cons_cons,
      ← List.map_cons, ← List.map_cons, ih, List.flatMap_cons, List.append_assoc (_ ++ _)]
    rfl

/-- The texts of lexemes and of an end token, joined by blanks, are scanned as the same tokens. -/
theorem ofSource_joined (hts : ∀ t ∈ ts, IsLexeme t.kind t.text.toList) {last : Token}
    (hlast : last.content = (.eof, "")) :
    (ofSource (Token.joined (ts ++ [last]))).tokens.map Token.content = (ts ++ [last]).map Token.content ∧
      (ofSource (Token.joined (ts ++ [last]))).warnings = [] := by
  obtain ⟨-, htext⟩ := Prod.mk.inj hlast
  obtain ⟨line, htokens, hwarnings⟩ := ofText_tokens hts 1 []
  rw [ofSource, Text.bytes, toList_joined, htext, List.map_append, List.map_singleton, hlast]
  exact ⟨htokens, hwarnings⟩

/-- The end token comes of its own accord. -/
theorem ofSource_joined_bare (hts : ∀ t ∈ ts, IsLexeme t.kind t.text.toList) :
    (ofSource (Token.joined ts)).tokens.map Token.content = ts.map Token.content ++ [(.eof, "")] ∧
      (ofSource (Token.joined ts)).warnings = [] := by
  rcases List.eq_nil_or_concat ts with rfl | ⟨us, u, rfl⟩
  · exact ⟨rfl, rfl⟩
  · rw [List.concat_eq_append] at hts ⊢
    have hu : IsLexeme u.kind u.text.toList := hts u (by simp)
    have hus : ∀ t ∈ us, IsLexeme t.kind t.text.toList := fun t ht => hts t (by simp [ht])
    obtain ⟨line, htokens, hwarnings⟩ := ofText_tokens hus 1 u.text.toList
    have hlast : ofText line (u.text.toList ++ []) = ⟨[⟨u.kind, u.text, line⟩, ⟨.eof, "", line⟩], []⟩ := by
      rw [ofText_lexeme hu (by simp), String.ofList_toList]
      rfl
    rw [List.append_nil] at hlast
    rw [hlast] at htokens hwarnings
    rw [ofSource, Text.bytes, toList_joined, List.map_append, List.append_assoc]
    exact ⟨htokens, hwarnings⟩

end Scan

/-- Lexemes that are separated are scanned as they are: every one is a token of its kind on the line that the line ends
before it give, nothing else is found, and no character is stray. So the texts of the tokens of any source, joined by
blanks, are scanned as the same tokens; whether the end token is among them makes no difference. -/
theorem Scan.ofSource_spaced (items : List Spaced) (source : String) :
    Scan.ofSource (String.ofList (items.flatMap Spaced.chars)) =
      ⟨Spaced.tokens 1 items ++ [⟨.eof, "", 1 + (items.flatMap Spaced.chars).count '\n'⟩], []⟩ ∧
    ((Scan.ofSource (Token.joined (Scan.ofSource source).tokens)).tokens.map Token.content =
        (Scan.ofSource source).tokens.map Token.content ∧
      (Scan.ofSource (Token.joined (Scan.ofSource source).tokens)).warnings = []) ∧
    (Scan.ofSource (Token.joined (Scan.ofSource source).tokens.dropLast)).tokens.map Token.content =
        (Scan.ofSource source).tokens.map Token.content ∧
      (Scan.ofSource (Token.joined (Scan.ofSource source).tokens.dropLast)).warnings = [] := by
  obtain ⟨ts, line, htokens, hts⟩ := ofSource_tokens source
  have hlexemes : ∀ t ∈ ts, IsLexeme t.kind t.text.toList := fun t ht => (hts t ht).1
  rw [htokens, List.dropLast_concat]
  refine ⟨?_, ofSource_joined hlexemes rfl, ?_⟩
  · have hscan : ofText 1 (items.flatMap Spaced.chars ++ []) = _ := ofText_spaced items
    rw [List.append_nil] at hscan
    rw [ofSource, Text.bytes, String.toList_ofList]
    exact hscan
  · rw [List.map_append]
    exact ofSource_joined_bare hlexemes

end PLZero
