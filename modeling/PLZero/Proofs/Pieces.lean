import PLZero.Proofs.Segments
import PLZero.Proofs.Utf8

/-! The pieces that the scanner takes from the bytes of a source are the segments of its text. No
character is cut: the bytes of ASCII are characters by themselves wherever they stand, and a byte
that starts a longer code is taken with all that continue it. So the scan of a source reads off the
cut of its text, and nothing of the source is left out or taken twice. -/

namespace PLZero

open Text (encode encode_cons)

namespace Piece

variable {c : Char}

theorem toNat_ascii (b : UInt8) : (ascii b).toNat = b.toNat := by
  have hvalid : b.toNat.isValidChar := .inl (Nat.lt_trans b.toNat_lt (by decide))
  rw [ascii, Char.ofNat, dif_pos hvalid]
  rfl

theorem ascii_ofNat (hc : c.toNat < 128) : ascii (UInt8.ofNat c.toNat) = c := by
  rw [← Char.toNat_inj, toNat_ascii, UInt8.toNat_ofNat_of_lt' (by omega : c.toNat < 256)]

theorem lt_of_isAlphanum (h : c.isAlphanum = true) : c.toNat < 128 := by
  delta Char.isAlphanum Char.isAlpha Char.isUpper Char.isLower Char.isDigit at h
  simp only [Bool.or_eq_true, Bool.and_eq_true, decide_eq_true_eq, ge_iff_le,
    UInt32.le_iff_toNat_le] at h
  have hlast : '9'.val.toNat = 57 ∧ 'Z'.val.toNat = 90 ∧ 'z'.val.toNat = 122 := by decide
  have hnat : c.toNat = c.val.toNat := rfl
  omega

theorem symbol_eq_none (hc : 128 ≤ c.toNat) (next : Option Char) :
    symbol c next = none := by
  unfold symbol
  split
  case h_17 => rfl
  all_goals exact absurd hc (by decide)

theorem starts_nothing (hc : 128 ≤ c.toNat) :
    c ≠ '\n' ∧ isSpace c = false ∧ c ≠ '/' ∧ c.isDigit = false ∧ c.isAlpha = false := by
  have hne : ∀ d : Char, d.toNat < 128 → c ≠ d := by
    rintro d hd rfl
    omega
  have hword : c.isAlphanum = false := Bool.eq_false_iff.mpr fun h => by
    have hlt := lt_of_isAlphanum h
    omega
  have hfeed : c.toNat ≠ 12 := by omega
  rw [Char.isAlphanum, Bool.or_eq_false_iff] at hword
  refine ⟨hne _ (by decide), ?_, hne _ (by decide), hword.2, hword.1⟩
  simp [isSpace, hne ' ' (by decide), hne '\t' (by decide), hne '\r' (by decide), hfeed]

/-- What a class of characters that does not tell characters outside of ASCII apart takes from the
bytes of a text are the bytes of what it takes from the text. -/
theorem run_encode {p : Char → Bool} {v : Bool} (hp : ∀ c, 128 ≤ c.toNat → p c = v)
    (cs : List Char) :
    (encode cs).takeWhile (fun b => p (ascii b)) = encode (cs.takeWhile p) ∧
      (encode cs).dropWhile (fun b => p (ascii b)) = encode (cs.dropWhile p) := by
  induction cs with
  | nil => exact ⟨rfl, rfl⟩
  | cons c cs ih =>
    rw [encode_cons]
    -- the bytes of a character are in the class exactly if the character is
    have hcode : ∀ b ∈ String.utf8EncodeChar c, p (ascii b) = p c := by
      obtain ⟨hc, hcode⟩ | ⟨hc, n, tail, hcode, hn, hlt, htail⟩ := Text.encode_cases c
      · rw [hcode, List.forall_mem_singleton, ascii_ofNat hc]
      · have hlarge : ∀ b ∈ UInt8.ofNat n :: tail, 128 ≤ b.toNat := by
          refine List.forall_mem_cons.mpr ⟨?_, fun b hb => (htail b hb).2⟩
          rw [UInt8.toNat_ofNat_of_lt' hlt]
          omega
        intro b hb
        rw [hp c hc, hp _ (by rw [toNat_ascii]; exact hlarge b (hcode ▸ hb))]
    cases hc : p c with
    | true =>
      rw [hc] at hcode
      rw [List.takeWhile_append_of_pos hcode, List.dropWhile_append_of_pos hcode, ih.1, ih.2,
        List.takeWhile_cons_of_pos hc, List.dropWhile_cons_of_pos hc, encode_cons]
      exact ⟨rfl, rfl⟩
    | false =>
      have hneg : ¬p c = true := by simp [hc]
      obtain ⟨b, bs, hb⟩ := List.exists_cons_of_ne_nil (Text.encodeChar_ne_nil c)
      have hfirst : ¬p (ascii b) = true := by simp [hcode b (by simp [hb]), hc]
      rw [List.takeWhile_cons_of_neg hneg, List.dropWhile_cons_of_neg hneg, encode_cons, hb]
      simp [hfirst, encode]

/-- Of the next character only its being one of ASCII matters. -/
theorem symbol_congr {next next' : Option Char}
    (h : ∀ d : Char, d.toNat < 128 → (next = some d ↔ next' = some d)) :
    symbol c next = symbol c next' := by
  have hequal := h '=' (by decide)
  have hgreater := h '>' (by decide)
  clear h
  unfold symbol
  split <;> simp_all

theorem head?_encode (cs : List Char) {d : Char} (hd : d.toNat < 128) :
    (encode cs).head?.map ascii = some d ↔ cs.head? = some d := by
  cases cs with
  | nil => simp [encode]
  | cons c cs =>
    rw [encode_cons]
    obtain ⟨hc, hcode⟩ | ⟨hc, n, tail, hcode, hn, hlt, -⟩ := Text.encode_cases c
    · rw [hcode]
      simp [ascii_ofNat hc]
    · have hbyte : ascii (UInt8.ofNat n) ≠ d := by
        intro heq
        rw [← heq, toNat_ascii, UInt8.toNat_ofNat_of_lt' hlt] at hd
        omega
      have hchar : c ≠ d := by
        rintro rfl
        omega
      rw [hcode]
      simp [hbyte, hchar]

end Piece

namespace Segment

variable {segments : List Segment}

/-- The bytes that the segment covers, in UTF-8. -/
def bytes (s : Segment) : List UInt8 := encode s.chars

def piece : Segment → Piece
  | newline => .newline
  | blank c => .blank (UInt8.ofNat c.toNat)
  | comment text => .comment (encode text)
  | lexeme kind text => .lexeme kind (encode text)
  | stray c => .stray (encode [c])

/-- A character of ASCII is one byte in front of what follows it. -/
theorem encode_ascii {c : Char} (hc : c.toNat < 128) (cs : List Char) :
    encode (c :: cs) = UInt8.ofNat c.toNat :: encode cs := by
  obtain ⟨-, hcode⟩ | ⟨hge, -⟩ := Text.encode_cases c
  · rw [encode_cons, hcode]
    rfl
  · omega

theorem IsLexeme.isAscii {kind : TokenKind} {text : List Char} (h : IsLexeme kind text) :
    ∀ c ∈ text, c.toNat < 128 := by
  cases h with
  | number hc hcs =>
    exact List.forall_mem_cons.mpr ⟨Piece.lt_of_isAlphanum (by simp [Char.isAlphanum, hc]),
      fun d hd => Piece.lt_of_isAlphanum (by simp [Char.isAlphanum, hcs d hd])⟩
  | word hc hcs =>
    exact List.forall_mem_cons.mpr ⟨Piece.lt_of_isAlphanum (by simp [Char.isAlphanum, hc]),
      fun d hd => Piece.lt_of_isAlphanum (hcs d hd)⟩
  | symbol h =>
    have hsymbols : ∀ e ∈ symbols, e.2.all (·.toNat < 128) = true := by decide
    exact fun c hc => of_decide_eq_true (List.all_eq_true.mp (hsymbols _ h) c hc)

section First

variable {kind : TokenKind} {c : Char} {cs rest : List Char}

/-- What is taken at the start of a symbol is the longest one there, a stray character where there
is none. -/
theorem punctuation_encode (hc : c.toNat < 128) (rest : List Char) :
    (∃ e ∈ symbols, ∃ rest', Piece.punctuation (UInt8.ofNat c.toNat) (encode rest) =
        (.lexeme e.1 (encode e.2), encode rest') ∧ e.2 ++ rest' = c :: rest ∧
      ∀ e' ∈ symbols, e'.2 <+: c :: rest → e'.2.length ≤ e.2.length) ∨
    Piece.punctuation (UInt8.ofNat c.toNat) (encode rest) = (.stray (encode [c]), encode rest) ∧
      ∀ e ∈ symbols, ¬ e.2 <+: c :: rest := by
  have hone : encode [c] = [UInt8.ofNat c.toNat] := encode_ascii hc []
  have hspec := symbol_spec c rest.head?
  rw [Piece.punctuation, Piece.ascii_ofNat hc,
    Piece.symbol_congr fun d hd => Piece.head?_encode rest hd]
  cases hs : Piece.symbol c rest.head? with
  | none =>
    rw [hs] at hspec
    have hsmall : UInt8.ofNat c.toNat < 0x80 := by
      rw [UInt8.lt_iff_toNat_lt, UInt8.toNat_ofNat_of_lt' (by omega : c.toNat < 256)]
      exact hc
    refine .inr ⟨by simp only [Piece.unexpected, if_pos hsmall, hone], fun e he hfront => ?_⟩
    obtain heq | ⟨d, hd, heq⟩ := (prefix_of_symbol he).mp hfront
    · exact (hspec e he).1 heq
    · exact (hspec e he).2 d hd heq
  | some s =>
    rw [hs] at hspec
    obtain ⟨kind, _ | _⟩ := s
    · refine .inl ⟨(kind, [c]), hspec.1, rest, by rw [hone], rfl, fun e he hfront => ?_⟩
      obtain heq | ⟨d, hd, heq⟩ := (prefix_of_symbol he).mp hfront
      · rw [heq]
      · exact absurd heq (hspec.2 d hd e he)
    · obtain ⟨d, hd, hmem⟩ := hspec
      obtain ⟨tail, rfl⟩ := List.head?_eq_some_iff.mp hd
      have hd : d.toNat < 128 := (IsLexeme.symbol hmem).isAscii d (by simp)
      refine .inl ⟨(kind, [c, d]), hmem, tail, ?_, rfl, fun e he hfront => ?_⟩
      · rw [encode_ascii hd, encode_ascii hc, encode_ascii hd]
        rfl
      · obtain heq | ⟨d', -, heq⟩ := (prefix_of_symbol he).mp hfront <;> simp [heq]

theorem first_lexeme (h : (lexeme kind (c :: cs)).Stands rest) (hc : c.toNat < 128) :
    Piece.first (UInt8.ofNat c.toNat) (encode (cs ++ rest)) =
      (.lexeme kind (encode (c :: cs)), encode rest) := by
  obtain ⟨hlex, hslashes, hmax⟩ := h
  have hcomment : ¬ (c = '/' ∧ (cs ++ rest).head? = some '/') := slashes_iff.not.mp hslashes
  have hword : ∀ d : Char, 128 ≤ d.toNat → d.isDigit = false ∧ d.isAlphanum = false := by
    intro d hd
    simp [Char.isAlphanum, Piece.starts_nothing hd]
  have htake {p : Char → Bool} (hp : ∀ d, 128 ≤ d.toNat → p d = false) (hcs : ∀ d ∈ cs, p d = true)
      (hrun : ∃ kind, IsLexeme kind (c :: (cs ++ rest).takeWhile p)) :
      (encode (cs ++ rest)).takeWhile (fun b => p (Piece.ascii b)) = encode cs ∧
        (encode (cs ++ rest)).dropWhile (fun b => p (Piece.ascii b)) = encode rest := by
    obtain ⟨kind, hrun⟩ := hrun
    have hlen := hmax _ _ hrun (List.cons_prefix_cons.mpr ⟨rfl, List.takeWhile_prefix _⟩)
    have heq := run_of_longest hcs (by simpa using hlen)
    rw [(Piece.run_encode hp _).1, (Piece.run_encode hp _).2, heq.1, heq.2]
    exact ⟨rfl, rfl⟩
  simp only [Piece.first, Piece.ascii_ofNat hc, Piece.head?_encode _ (by decide : '/'.toNat < 128)]
  rw [if_neg (head_of_lexeme hlex).1, if_neg (by simp [head_of_lexeme hlex]), if_neg hcomment]
  by_cases hd : c.isDigit = true
  · obtain ⟨rfl, hcs⟩ := hlex.of_isDigit hd
    have heq := htake (fun d hd => (hword d hd).1) hcs
      ⟨_, .number hd fun d hmem => List.mem_takeWhile_imp hmem⟩
    rw [if_pos hd, heq.1, heq.2, ← encode_ascii hc]
  · rw [if_neg hd]
    by_cases ha : c.isAlpha = true
    · obtain ⟨rfl, hcs⟩ := hlex.of_isAlpha ha
      have heq := htake (fun d hd => (hword d hd).2) hcs
        ⟨_, .word ha fun d hmem => List.mem_takeWhile_imp hmem⟩
      rw [if_pos ha, heq.1, heq.2, ← encode_ascii hc, Text.lossy_encode]
    · rw [if_neg ha]
      have hs := hlex.of_not_isAlphanum (by simpa using hd) (by simpa using ha)
      obtain ⟨⟨kind', text⟩, he, rest', htaken, htext, hlong⟩ | ⟨-, hnone⟩ :=
        punctuation_encode hc (cs ++ rest)
      · have hsame : text ++ rest' = (c :: cs) ++ rest := htext
        have hle := hlong _ hs ⟨rest, rfl⟩
        have hge := hmax _ _ (.symbol he) ⟨rest', hsame⟩
        obtain ⟨rfl, rfl⟩ := List.append_inj hsame (Nat.le_antisymm hge hle)
        have hkinds : ∀ e ∈ symbols, ∀ e' ∈ symbols, e.2 = e'.2 → e = e' := by decide
        rw [htaken, hkinds _ he _ hs rfl]
      · exact absurd ⟨rest, rfl⟩ (hnone _ hs)

theorem first_stray (h : (stray c).Stands rest) : ∃ b bs, encode (c :: rest) = b :: bs ∧
    Piece.first b bs = (.stray (encode [c]), encode rest) := by
  obtain ⟨hc, -⟩ | ⟨hc, n, tail, hcode, hn, hlt, htail⟩ := Text.encode_cases c
  · obtain ⟨hnewline, hblank, hnone⟩ := h
    have hslash : c ≠ '/' := by
      rintro rfl
      exact hnone .operator ['/'] (.symbol (by decide)) ⟨rest, rfl⟩
    have hdigit : ¬ c.isDigit = true := fun hd => hnone _ [c] (.number hd (by simp)) ⟨rest, rfl⟩
    have halpha : ¬ c.isAlpha = true := fun ha => hnone _ [c] (.word ha (by simp)) ⟨rest, rfl⟩
    refine ⟨_, _, encode_ascii hc rest, ?_⟩
    simp only [Piece.first, Piece.ascii_ofNat hc]
    rw [if_neg hnewline, if_neg ((isSpace_iff c).not.mpr hblank), if_neg (fun h => hslash h.1),
      if_neg hdigit, if_neg halpha]
    obtain ⟨e, he, rest', -, htext, -⟩ | ⟨htaken, -⟩ := punctuation_encode hc rest
    · exact absurd ⟨rest', htext⟩ (hnone e.1 e.2 (.symbol he))
    · exact htaken
  · -- a character of more bytes starts nothing, and its first byte stands for such a character
    obtain ⟨htaken, hleft⟩ := Text.continuation_encode (fun b hb => (htail b hb).1) rest
    have hlarge : ¬UInt8.ofNat n < 0x80 := by
      rw [UInt8.lt_iff_toNat_lt, UInt8.toNat_ofNat_of_lt' hlt]
      exact Nat.not_lt.mpr (Nat.le_trans (by decide) hn)
    have hbyte : 128 ≤ (Piece.ascii (UInt8.ofNat n)).toNat := by
      rw [Piece.toNat_ascii, UInt8.toNat_ofNat_of_lt' hlt]
      omega
    refine ⟨UInt8.ofNat n, tail ++ encode rest, by rw [encode_cons, hcode]; rfl, ?_⟩
    have hone : encode [c] = UInt8.ofNat n :: tail := by rw [encode_cons, hcode]; exact List.append_nil _
    simp [Piece.first, Piece.punctuation, Piece.starts_nothing hbyte, Piece.symbol_eq_none hbyte,
      Piece.unexpected, hlarge, htaken, hleft, hone]

theorem first_comment (h : (comment (c :: cs)).Stands rest) (hc : c.toNat < 128) :
    Piece.first (UInt8.ofNat c.toNat) (encode (cs ++ rest)) =
      (.comment (encode (c :: cs)), encode rest) := by
  obtain ⟨hslashes, hline, hrest⟩ := h
  obtain ⟨rfl, hhead⟩ := slashes_iff.mp hslashes
  have hcs : ∀ d ∈ cs, (d != '\n') = true := by
    intro d hd
    simp only [bne_iff_ne]
    rintro rfl
    exact hline (List.mem_cons_of_mem _ hd)
  have hhead' : (cs ++ rest).head? = some '/' := by simp [List.head?_append, hhead]
  have hnil : rest.takeWhile (· != '\n') = [] := by
    obtain rfl | hrest := hrest
    · rfl
    · obtain ⟨tail, rfl⟩ := List.head?_eq_some_iff.mp hrest
      simp
  have heq := run_of_longest hcs (by rw [List.takeWhile_append_of_pos hcs, hnil]; simp)
  have hrun := Piece.run_encode (p := (· != '\n')) (v := true)
    (fun d hd => by simpa using (Piece.starts_nothing hd).1) (cs ++ rest)
  simp only [Piece.first, Piece.ascii_ofNat hc, Piece.head?_encode _ (by decide : '/'.toNat < 128)]
  rw [if_neg (by decide), if_neg (by decide), if_pos ⟨trivial, hhead'⟩, hrun.1, hrun.2, heq.1, heq.2,
    ← encode_ascii hc]

/-- One turn of the scanner takes the bytes of a segment that stands in front of what follows it. -/
theorem first_of_stands {s : Segment} (h : s.Stands rest) :
    ∃ b bs, encode (s.chars ++ rest) = b :: bs ∧ Piece.first b bs = (s.piece, encode rest) := by
  cases s with
  | newline => exact ⟨_, _, encode_ascii (by decide) rest, rfl⟩
  | blank c =>
    have hne : c ≠ '\n' := fun heq => newline_not_blank (heq ▸ h)
    have hblanks : blanks.all (·.toNat < 128) = true := by decide
    have hc : c.toNat < 128 := of_decide_eq_true (List.all_eq_true.mp hblanks c h)
    refine ⟨_, _, encode_ascii hc rest, ?_⟩
    simp only [Piece.first, Piece.ascii_ofNat hc]
    rw [if_neg hne, if_pos ((isSpace_iff c).mpr h)]
    rfl
  | comment text =>
    cases text with
    | nil => exact absurd h.1 (by simp)
    | cons c cs =>
      have hc : c.toNat < 128 := by rw [(slashes_iff.mp h.1).1]; decide
      exact ⟨_, _, encode_ascii hc _, first_comment h hc⟩
  | lexeme kind text =>
    cases text with
    | nil => exact absurd rfl h.1.ne_nil
    | cons c cs =>
      have hc : c.toNat < 128 := h.1.isAscii c List.mem_cons_self
      exact ⟨_, _, encode_ascii hc _, first_lexeme h hc⟩
  | stray c => exact first_stray h

end First

theorem length_le_encode (cs : List Char) : cs.length ≤ (encode cs).length := by
  induction cs with
  | nil => rfl
  | cons c cs ih =>
    have hpos := List.length_pos_iff.mpr (Text.encodeChar_ne_nil c)
    rw [encode_cons, List.length_append, List.length_cons]
    omega

theorem take_of_cut {n : Nat} (hcut : Cut segments)
    (hn : (encode (segments.flatMap chars)).length ≤ n) :
    Piece.take n (encode (segments.flatMap chars)) = segments.map piece := by
  induction segments generalizing n with
  | nil => cases n <;> rfl
  | cons s segments ih =>
    obtain ⟨b, bs, hcode, hfirst⟩ := first_of_stands hcut.1
    have hpos := List.length_pos_iff.mpr hcut.1.chars_ne_nil
    have hbytes := length_le_encode s.chars
    rw [List.flatMap_cons, Text.encode_append, List.length_append] at hn
    obtain ⟨n, rfl⟩ : ∃ m, n = m + 1 := ⟨n - 1, by omega⟩
    rw [List.flatMap_cons, hcode, Piece.take, hfirst, ih hcut.2 (by omega), List.map_cons]

/-- The pieces of a text's bytes are those that cover the segments of a cut. -/
theorem ofBytes_of_cut (hcut : Cut segments) :
    Piece.ofBytes (encode (segments.flatMap chars)) = segments.map piece :=
  take_of_cut hcut (Nat.le_refl _)

example : Piece.ofBytes (encode ['<', '>', '=', '/', '/', 'é']) =
    [.lexeme .operator [60, 62], .lexeme .operator [61], .comment [47, 47, 195, 169]] := by
  decide +kernel

/-- A text has only one cut. -/
theorem Cut.unique {others : List Segment} (h : Cut segments) (h' : Cut others)
    (htext : segments.flatMap chars = others.flatMap chars) : segments = others := by
  induction segments generalizing others with
  | nil =>
    cases others with
    | nil => rfl
    | cons s others => exact absurd (List.append_eq_nil_iff.mp htext.symm).1 h'.1.chars_ne_nil
  | cons s segments ih =>
    cases others with
    | nil => exact absurd (List.append_eq_nil_iff.mp htext).1 h.1.chars_ne_nil
    | cons s' others =>
      simp only [List.flatMap_cons] at htext
      obtain ⟨b, bs, hcode, hfirst⟩ := first_of_stands h.1
      obtain ⟨b', bs', hcode', hfirst'⟩ := first_of_stands h'.1
      cases hcode.symm.trans ((congrArg encode htext).trans hcode')
      obtain ⟨hpiece, hrest⟩ := Prod.mk.inj (hfirst.symm.trans hfirst')
      have hrest := Text.encode_inj hrest
      have hchars := List.append_cancel_right (hrest ▸ htext)
      obtain rfl : s = s' := by cases s <;> cases s' <;> simp_all [piece, chars]
      rw [ih h.2 h'.2 hrest]

/-- The segments with their lines, the first of which is `line`: every byte 10 before a segment ends a line. -/
def located (line : Nat) (segments : List Segment) : List (Nat × Segment) :=
  segments.mapIdx fun k s => (line + ((segments.take k).flatMap bytes).count 10, s)

def token? : Nat × Segment → Option Token
  | (line, lexeme kind text) => some ⟨kind, String.ofList text, line⟩
  | _ => none

def warning? : Nat × Segment → Option Warning
  | (line, stray c) => some ⟨"unrecognized character '" ++ String.singleton c ++ "'", line, some "W0001"⟩
  | _ => none

theorem flatMap_bytes (segments : List Segment) :
    segments.flatMap bytes = encode (segments.flatMap chars) := by
  rw [encode, List.flatMap_assoc]
  rfl

/-- The byte 10 is a line end wherever it stands: the other characters are encoded without it. -/
theorem count_encodeChar (c : Char) :
    (String.utf8EncodeChar c).count 10 = if c = '\n' then 1 else 0 := by
  have hnewline : c = '\n' ↔ c.toNat = 10 := by
    rw [← Char.toNat_inj]
    rfl
  obtain ⟨hc, hcode⟩ | ⟨hc, n, tail, hcode, hn, hlt, htail⟩ := Text.encode_cases c
  · have hbyte : UInt8.ofNat c.toNat = 10 ↔ c.toNat = 10 := by
      rw [← UInt8.toNat_inj, UInt8.toNat_ofNat_of_lt' (by omega : c.toNat < 256)]
      rfl
    rw [hcode, List.count_singleton]
    simp only [beq_iff_eq, hbyte, hnewline]
  · rw [if_neg (hnewline.not.mpr (by omega)), hcode]
    refine List.count_eq_zero_of_not_mem fun hmem => ?_
    obtain heq | hmem := List.mem_cons.mp hmem
    · have hten := congrArg UInt8.toNat heq
      rw [UInt8.toNat_ofNat_of_lt' hlt] at hten
      exact absurd (hten ▸ hn) (by decide)
    · exact absurd (htail _ hmem).2 (by decide)

theorem count_encode (cs : List Char) : (encode cs).count 10 = cs.count '\n' := by
  induction cs with
  | nil => rfl
  | cons c cs ih =>
    rw [encode_cons, List.count_append, ih, count_encodeChar, List.count_cons, Nat.add_comm]
    simp only [beq_iff_eq]

/-- Among the segments of a cut only line ends contain the byte 10. -/
theorem Stands.count_bytes {s : Segment} {rest : List Char} (h : s.Stands rest) :
    s.bytes.count 10 = if s = newline then 1 else 0 := by
  rw [bytes, count_encode]
  cases s with
  | newline => rfl
  | blank c =>
    refine List.count_eq_zero_of_not_mem fun hmem => newline_not_blank ?_
    rwa [← List.mem_singleton.mp hmem] at h
  | comment text => exact List.count_eq_zero_of_not_mem h.2.1
  | lexeme kind text => exact List.count_eq_zero_of_not_mem h.1.newline_not_mem
  | stray c => exact List.count_eq_zero_of_not_mem fun hmem => h.1 (List.mem_singleton.mp hmem).symm

theorem located_cons (line : Nat) (s : Segment) (segments : List Segment) :
    located line (s :: segments) = (line, s) :: located (line + s.bytes.count 10) segments := by
  simp only [located, List.mapIdx_cons, List.take_zero, List.flatMap_nil, List.count_nil, List.take_succ_cons,
    List.flatMap_cons, List.count_append, Nat.add_zero, Nat.add_assoc]

theorem Cut.lexeme {kind : TokenKind} {text : List Char} (h : Cut segments)
    (hm : .lexeme kind text ∈ segments) : IsLexeme kind text := by
  induction segments with
  | nil => cases hm
  | cons s segments ih =>
    obtain heq | hm := List.mem_cons.mp hm
    · subst heq
      exact h.1.1
    · exact ih h.2 hm

/-- A token of a cut is a lexeme of its kind, and at most the line ends of the text stand before it. -/
theorem mem_tokens_of_cut {line : Nat} (h : Cut segments) {t : Token}
    (ht : t ∈ (located line segments).filterMap token?) :
    IsLexeme t.kind t.text.toList ∧ line ≤ t.line ∧ t.line ≤ line + (segments.flatMap chars).count '\n' := by
  obtain ⟨⟨l, s⟩, hmem, htoken⟩ := List.mem_filterMap.mp ht
  obtain ⟨k, hk, heq⟩ := List.mem_mapIdx.mp hmem
  cases heq
  have hlines : ((segments.take k).flatMap bytes).count 10 ≤ (segments.flatMap chars).count '\n' := by
    calc ((segments.take k).flatMap bytes).count 10
        ≤ ((segments.take k ++ segments.drop k).flatMap bytes).count 10 := by
          rw [List.flatMap_append, List.count_append]
          exact Nat.le_add_right _ _
      _ = (segments.flatMap chars).count '\n' := by rw [List.take_append_drop, flatMap_bytes, count_encode]
  cases hs : segments[k] with
  | lexeme kind text =>
    rw [hs] at htoken
    cases htoken
    have hlexeme : .lexeme kind text ∈ segments := hs ▸ List.getElem_mem hk
    exact ⟨by simpa using h.lexeme hlexeme, Nat.le_add_right _ _, Nat.add_le_add_left hlines _⟩
  | _ =>
    rw [hs] at htoken
    cases htoken

end Segment

open Segment

namespace Scan

/-- A scan reads off a cut its lexemes and stray characters. -/
theorem ofPieces_of_cut (line : Nat) {segments : List Segment} (h : Cut segments) :
    ofPieces line (segments.map piece) =
      ⟨(located line segments).filterMap token? ++ [⟨.eof, "", line + (segments.flatMap bytes).count 10⟩],
        (located line segments).filterMap warning?⟩ := by
  induction segments generalizing line with
  | nil => rfl
  | cons s segments ih =>
    have hline := h.1.count_bytes
    rw [located_cons, List.flatMap_cons, List.count_append, ← Nat.add_assoc, List.map_cons]
    cases s with
    | lexeme | stray =>
      rw [piece, ofPieces, ih _ h.2, hline, Text.lossy_encode]
      rfl
    | _ =>
      rw [piece, ofPieces, ih _ h.2, hline]
      rfl

theorem ofSource_of_cut {source : String} {segments : List Segment} (h : Cut segments)
    (htext : segments.flatMap chars = source.toList) :
    ofSource source = ⟨(located 1 segments).filterMap token? ++
      [⟨.eof, "", 1 + (segments.flatMap bytes).count 10⟩], (located 1 segments).filterMap warning?⟩ := by
  rw [ofSource, Text.bytes, ← htext, ofBytes_of_cut h, ofPieces_of_cut 1 h]

/-- The tokens of a source text but the last, which ends them. -/
theorem ofSource_tokens (source : String) : ∃ ts line,
    (ofSource source).tokens = ts ++ [⟨.eof, "", line⟩] ∧
    ∀ t ∈ ts, IsLexeme t.kind t.text.toList ∧ 1 ≤ t.line ∧
      t.line ≤ 1 + source.toList.count '\n' := by
  obtain ⟨segments, htext, hcut⟩ := exists_cut source.toList
  rw [ofSource_of_cut hcut htext]
  refine ⟨_, _, rfl, fun t ht => ?_⟩
  have hmem := mem_tokens_of_cut hcut ht
  rwa [htext] at hmem

theorem ofSource_identifier {source : String} {t : Token} (ht : t ∈ (ofSource source).tokens)
    (hk : t.kind = .identifier) : IsWord t.text := by
  obtain ⟨ts, line, htokens, hts⟩ := ofSource_tokens source
  rw [htokens, List.mem_append, List.mem_singleton] at ht
  obtain ht | rfl := ht
  · have hlexeme := (hts t ht).1
    rw [hk] at hlexeme
    have hword := hlexeme.identifier.1
    rwa [String.ofList_toList] at hword
  · cases hk

/-- The scanner takes the bytes of a source once and in order. The pieces are those of the only cut
of the text into line ends, blanks, comments, longest lexemes and whole characters that start none
of these; the tokens are the lexemes with their lines, one end token last, and each of the other
characters is named by one warning. -/
theorem ofSource_covers (source : String) : ∃ segments : List Segment,
    segments.flatMap Segment.bytes = source.toUTF8.data.toList ∧ Cut segments ∧
    (∀ other : List Segment, other.flatMap Segment.bytes = source.toUTF8.data.toList →
      Cut other → other = segments) ∧
    Piece.ofBytes source.toUTF8.data.toList = segments.map piece ∧
    (ofSource source).tokens = (located 1 segments).filterMap token? ++
      [⟨.eof, "", 1 + source.toUTF8.data.toList.count 10⟩] ∧
    (∀ token ∈ (located 1 segments).filterMap token?, token.kind ≠ .eof) ∧
    (ofSource source).warnings = (located 1 segments).filterMap warning? := by
  obtain ⟨segments, htext, hcut⟩ := exists_cut source.toList
  have hbytes : segments.flatMap Segment.bytes = source.toUTF8.data.toList := by
    rw [flatMap_bytes, htext, Text.toUTF8_toList]
    rfl
  have hscan := ofSource_of_cut hcut htext
  rw [hbytes] at hscan
  refine ⟨segments, hbytes, hcut, ?_, ?_, ?_, ?_, ?_⟩
  · -- The bytes of two cuts of one source are those of one text.
    intro other hother hcut'
    rw [← hbytes, flatMap_bytes, flatMap_bytes] at hother
    exact hcut'.unique hcut (Text.encode_inj hother)
  · rw [← hbytes, flatMap_bytes, ofBytes_of_cut hcut]
  · exact congrArg Scan.tokens hscan
  · exact fun token htoken => (mem_tokens_of_cut hcut htoken).1.kind_ne_eof
  · exact congrArg Scan.warnings hscan

end Scan

end PLZero
