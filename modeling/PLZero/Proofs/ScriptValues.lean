import Mathlib.Algebra.Order.Ring.Cast
import PLZero.Proofs.Postfix
import PLZero.Proofs.Printed
import PLZero.Proofs.ScriptReader
import PLZero.Proofs.ScriptScopes
import PLZero.Proofs.Segments

/-! The values of expressions in scripts. The text of an expression, read back, has the value of its postfix code
where it is used as a number, and counts as true where it is used as a condition if and only if that value is not
zero. -/

namespace PLZero

namespace Js

/-! Splitting texts into tokens. -/

/-- What can come behind an expression. -/
def Boundary (rest : List Char) : Prop := ∀ c ∈ rest.head?, c ∈ [' ', ')', ',', ';']

/-- In front of what can come behind an expression, the text is split into these tokens. -/
def Lexes (text : String) (ts : List Token) : Prop :=
  ∀ rest, Boundary rest → scan .nothing (text.toList ++ rest) = ts ++ scan .nothing rest

theorem scan_word {cs rest : List Char} (h : ∀ c ∈ cs, isWordChar c = true)
    (hrest : ∀ c ∈ rest.head?, isWordChar c = false) (text : List Char) :
    scan (.word text) (cs ++ rest) = .word (.ofList (text ++ cs)) :: scan .nothing rest := by
  induction cs generalizing text with
  | nil =>
    cases rest with
    | nil => simp [scan]
    | cons d rest => simp [scan, next, hrest d rfl]
  | cons c cs ih =>
    rw [List.cons_append, scan, next, if_pos (h c (by simp)), ih fun c hc => h c (by simp [hc])]
    simp

def IsToken (w : String) : Prop := w ≠ "" ∧ ∀ c ∈ w.toList, isWordChar c = true

theorem IsToken.scan {w : String} {rest : List Char} (h : IsToken w) (hrest : ∀ c ∈ rest.head?, isWordChar c = false) :
    Js.scan .nothing (w.toList ++ rest) = .word w :: Js.scan .nothing rest := by
  obtain ⟨hne, hchars⟩ := h
  cases hcs : w.toList with
  | nil => exact absurd (String.toList_eq_nil_iff.mp hcs) hne
  | cons c cs =>
    rw [hcs] at hchars
    have hw : String.ofList (c :: cs) = w := by rw [← hcs, String.ofList_toList]
    rw [List.cons_append, Js.scan, next, start, if_pos (hchars c (by simp)), List.nil_append,
      scan_word (fun c hc => hchars c (by simp [hc])) hrest, List.singleton_append, hw]

theorem Boundary.not_word {rest : List Char} (h : Boundary rest) : ∀ c ∈ rest.head?, isWordChar c = false := by
  intro c hc
  have hmem := h c hc
  simp only [List.mem_cons, List.not_mem_nil, or_false] at hmem
  rcases hmem with rfl | rfl | rfl | rfl <;> rfl

theorem Boundary.cons {c : Char} (h : c ∈ [' ', ')', ',', ';']) (rest : List Char) : Boundary (c :: rest) := by
  intro d hd
  obtain rfl := Option.some.inj hd
  exact h

theorem IsToken.lexes {w : String} (h : IsToken w) : Lexes w [.word w] := fun _ hrest => h.scan hrest.not_word

theorem scan_symbol {text rest : List Char} (h : ∀ c ∈ rest.head?, text ++ [c] ∉ symbols) :
    scan (.symbol text) rest = .symbol (.ofList text) :: scan .nothing rest := by
  cases rest with
  | nil => simp [scan]
  | cons c rest => simp [scan, next, h c rfl]

/-- A character of a word does not go on with a symbol. -/
theorem notMem_symbols {text : List Char} {c : Char} (hc : isWordChar c = true) : text ++ [c] ∉ symbols := by
  intro hmem
  have hall : ∀ s ∈ symbols, s.all (!isWordChar ·) = true := by decide
  have hnone := List.all_eq_true.mp (hall _ hmem) c (by simp)
  rw [hc] at hnone
  cases hnone

theorem IsToken.head {w : String} (h : IsToken w) (rest : List Char) :
    ∀ c ∈ (w.toList ++ rest).head?, isWordChar c = true := by
  obtain ⟨hne, hchars⟩ := h
  intro c hc
  rw [List.head?_append_of_ne_nil _ (by simpa using hne)] at hc
  exact hchars c (List.mem_of_head? hc)

theorem scan_blank (rest : List Char) : scan .nothing (' ' :: rest) = scan .nothing rest := rfl

theorem scan_alone {c : Char} (hc : start c = ([], .symbol [c])) (halone : ∀ s ∈ symbols, s.head? = some c → s = [c])
    (rest : List Char) : scan .nothing (c :: rest) = .symbol (.ofList [c]) :: scan .nothing rest := by
  rw [scan, next, hc]
  refine scan_symbol fun d _ hmem => ?_
  cases halone _ hmem rfl

theorem scan_opening (rest : List Char) : scan .nothing ('(' :: rest) = .symbol "(" :: scan .nothing rest :=
  scan_alone rfl (by decide) rest

theorem scan_closing (rest : List Char) : scan .nothing (')' :: rest) = .symbol ")" :: scan .nothing rest :=
  scan_alone rfl (by decide) rest

/-! Reading tokens. -/

/-- The tokens take a reader from one state to another. -/
def Reads (r : Reading) (ts : List Token) (r' : Reading) : Prop := ts.foldlM Reading.step r = some r'

section

variable {r r' r'' : Reading} {pending : List Pending} {t : Token} {ts ts' : List Token} {w : String} {x y : Term}

theorem Reads.nil : Reads r [] r := rfl

theorem Reads.cons (h : r.step t = some r') (h' : Reads r' ts r'') : Reads r (t :: ts) r'' := by
  unfold Reads
  rw [List.foldlM_cons, h]
  exact h'

theorem Reads.append (h : Reads r ts r') (h' : Reads r' ts' r'') : Reads r (ts ++ ts') r'' := by
  unfold Reads at h ⊢
  rw [List.foldlM_append, h]
  exact h'

theorem step_word (himul : w ≠ "Math.imul") (hx : operand? w = some x) :
    Reading.step ⟨pending, none⟩ (.word w) = some ⟨pending, some x⟩ := by
  unfold Reading.step expecting
  simp only [if_neg himul, hx, Option.map_some]

/-- A parenthesis opens an expression, unless it opens the arguments of a function. -/
theorem step_opening (h : ∀ rest, pending ≠ .imul :: rest) :
    Reading.step ⟨pending, none⟩ (.symbol "(") = some ⟨.paren :: pending, none⟩ := by
  match pending with
  | [] => rfl
  | p :: rest =>
    cases p with
    | imul => exact absurd rfl (h rest)
    | _ => rfl

/-- An operator where nothing that is pending binds as tightly. -/
theorem step_operator {op : Operator} {s : String} (hop : Operator.ofSymbol? s = some op)
    (hreduce : reduce op.level pending x = (pending, x)) :
    Reading.step ⟨pending, some x⟩ (.symbol s) = some ⟨.binary op x :: pending, none⟩ := by
  unfold Reading.step behind
  simp only [hop, hreduce]

theorem reduce_binary (op : Operator) (x y : Term) (pending : List Pending) :
    reduce 0 (.binary op x :: pending) y = reduce 0 pending (.binary op x y) := by
  simp only [reduce, Nat.zero_le, if_true]

theorem step_closing_binary (op : Operator) (x y : Term) :
    Reading.step ⟨.binary op x :: .paren :: pending, some y⟩ (.symbol ")") = some ⟨pending, some (.binary op x y)⟩ := by
  have hsymbol : Operator.ofSymbol? ")" = none := rfl
  unfold Reading.step behind
  simp only [hsymbol, reduce_binary]
  rfl

/-- An operation before a question mark is the condition. -/
theorem step_question (op : Operator) (x y : Term) : Reading.step ⟨.binary op x :: .paren :: pending, some y⟩
    (.symbol "?") = some ⟨.question (.binary op x y) :: .paren :: pending, none⟩ := by
  have hsymbol : Operator.ofSymbol? "?" = none := rfl
  have hlevel : 1 ≤ op.level := by cases op <;> decide
  unfold Reading.step behind
  simp only [hsymbol, reduce, hlevel, if_true]

theorem step_colon (x y : Term) :
    Reading.step ⟨.question x :: pending, some y⟩ (.symbol ":") = some ⟨.otherwise x y :: pending, none⟩ := rfl

theorem step_closing_otherwise (x y z : Term) :
    Reading.step ⟨.otherwise x y :: .paren :: pending, some z⟩ (.symbol ")") = some ⟨pending, some (.choose x y z)⟩ :=
  rfl

end

/-- A text that is read as one operand, wherever an operand can stand. -/
def Operand (text : String) (x : Term) : Prop :=
  ∃ ts, Lexes text ts ∧ ∀ pending, (∀ rest, pending ≠ .imul :: rest) → Reads ⟨pending, none⟩ ts ⟨pending, some x⟩

theorem isToken_ofNat (n : Nat) : IsToken (Text.ofNat n) := by
  refine ⟨fun hnil => ?_, fun c hc => ?_⟩
  · have hdigits : Nat.toDigits 10 n = [] := by
      rw [← Nat.toList_repr]
      exact String.toList_eq_nil_iff.mpr hnil
    exact Nat.toDigits_ne_nil hdigits
  · simp [isWordChar, Char.isAlphanum, Text.isDigit_ofNat hc]

theorem operand?_ofNat (n : Nat) : operand? (Text.ofNat n) = some (.number n) := by
  have hread : Text.readDigits (Text.ofNat n).toList = some n := by
    rw [Text.ofNat, Nat.toList_repr, Text.readDigits_toDigits]
  have hnumeral : numeral? (Text.ofNat n) = some n := by
    unfold numeral?
    rw [hread]
    simp [Option.filter]
  unfold operand?
  rw [hnumeral]

theorem step_number (n : Nat) (pending : List Pending) :
    Reading.step ⟨pending, none⟩ (.word (Text.ofNat n)) = some ⟨pending, some (.number n)⟩ := by
  refine step_word ?_ (operand?_ofNat n)
  intro heq
  have hdigit := Text.isDigit_ofNat (n := n) (c := 'M') (by rw [heq]; decide)
  revert hdigit
  decide

/-- The script's name for a word: a letter, then letters, digits and underscores. -/
theorem nameOf_chars {name : String} (h : IsWord name) : ∃ c cs, (Script.nameOf name).toList = c :: cs ∧
    c.isAlpha = true ∧ ∀ d ∈ cs, d.isAlphanum = true ∨ d = '_' := by
  obtain ⟨c, cs, hname, hc, hcs⟩ := h
  have hcs : ∀ d ∈ cs, d.isAlphanum = true := List.all_eq_true.mp hcs
  rw [Script.nameOf_eq]
  split
  · refine ⟨c, cs ++ ['_'], by simp [hname], hc, ?_⟩
    intro d hd
    rcases List.mem_append.mp hd with hd | hd
    · exact .inl (hcs d hd)
    · exact .inr (List.mem_singleton.mp hd)
  · exact ⟨c, cs, hname, hc, fun d hd => .inl (hcs d hd)⟩

theorem isToken_nameOf {name : String} (h : IsWord name) : IsToken (Script.nameOf name) := by
  obtain ⟨c, cs, hname, hc, hcs⟩ := nameOf_chars h
  constructor
  · intro hnil
    rw [hnil] at hname
    cases hname
  · intro d hd
    rw [hname] at hd
    rcases List.mem_cons.mp hd with rfl | hd
    · simp [isWordChar, Char.isAlphanum, hc]
    · rcases hcs d hd with hd | rfl
      · simp [isWordChar, hd]
      · rfl

theorem dot_notMem_nameOf {name : String} (h : IsWord name) : '.' ∉ (Script.nameOf name).toList := by
  obtain ⟨c, cs, hname, hc, hcs⟩ := nameOf_chars h
  intro hdot
  rw [hname] at hdot
  rcases List.mem_cons.mp hdot with rfl | hdot
  · exact absurd hc (by decide)
  · exact absurd (hcs _ hdot) (by decide)

theorem isName_nameOf {name : String} (h : IsWord name) : isName (Script.nameOf name) = true := by
  have hdot := dot_notMem_nameOf h
  have htaken : Script.nameOf name ∉ Script.reserved := fun hmem =>
    Script.nameOf_notMem_taken name (List.mem_append_left _ hmem)
  obtain ⟨c, cs, hname, hc, -⟩ := nameOf_chars h
  have hdigit : c.isDigit ≠ true := fun hdigit => by
    rw [Segment.IsLexeme.not_isAlpha_of_isDigit hdigit] at hc
    cases hc
  unfold isName
  rw [hname] at hdot ⊢
  simp only [List.head?_cons, Option.any_some, hdigit, htaken, Bool.and_eq_true, List.all_eq_true, bne_iff_ne]
  exact ⟨⟨rfl, fun d hd heq => hdot (heq ▸ hd)⟩, rfl⟩

theorem operand?_nameOf {name : String} (h : IsWord name) :
    operand? (Script.nameOf name) = some (.name (Script.nameOf name)) := by
  obtain ⟨c, cs, hname, hc, -⟩ := nameOf_chars h
  have hread : Text.readDigits (Script.nameOf name).toList = none := by
    unfold Text.readDigits
    rw [hname, if_neg]
    intro hall
    have hdigit : c.isDigit = true := List.all_eq_true.mp hall.2 c List.mem_cons_self
    rw [Segment.IsLexeme.not_isAlpha_of_isDigit hdigit] at hc
    cases hc
  have hnumeral : numeral? (Script.nameOf name) = none := by
    unfold numeral?
    rw [hread]
    rfl
  unfold operand?
  rw [hnumeral]
  exact if_pos (isName_nameOf h)

theorem step_name {name : String} (h : IsWord name) (pending : List Pending) :
    Reading.step ⟨pending, none⟩ (.word (Script.nameOf name)) = some ⟨pending, some (.name (Script.nameOf name))⟩ := by
  refine step_word ?_ (operand?_nameOf h)
  intro heq
  exact dot_notMem_nameOf h (heq ▸ by decide)

namespace Operand

variable {l r w : String} {x y : Term}

theorem number (n : Nat) : Operand (Text.ofNat n) (.number n) :=
  ⟨[.word (Text.ofNat n)], (isToken_ofNat n).lexes, fun pending _ => .cons (step_number n pending) .nil⟩

theorem name {name : String} (h : IsWord name) : Operand (Script.nameOf name) (.name (Script.nameOf name)) :=
  ⟨[.word (Script.nameOf name)], (isToken_nameOf h).lexes, fun pending _ => .cons (step_name h pending) .nil⟩

theorem negative (n : Nat) : Operand ("(-" ++ Text.ofNat n ++ ")") (.negate (.number n)) := by
  refine ⟨[.symbol "(", .symbol "-", .word (Text.ofNat n), .symbol ")"], ?_, ?_⟩
  · intro rest hrest
    have hcs : ("(-" ++ Text.ofNat n ++ ")").toList ++ rest =
        '(' :: '-' :: ((Text.ofNat n).toList ++ ')' :: rest) := by simp
    have hminus : scan .nothing ('-' :: ((Text.ofNat n).toList ++ ')' :: rest)) =
        .symbol "-" :: scan .nothing ((Text.ofNat n).toList ++ ')' :: rest) := by
      refine (show scan .nothing ('-' :: _) = scan (.symbol ['-']) _ from rfl).trans (scan_symbol fun c hc => ?_)
      exact notMem_symbols ((isToken_ofNat n).head _ c hc)
    rw [hcs, scan_opening, hminus, (isToken_ofNat n).lexes _ (.cons (by decide) _), scan_closing]
    rfl
  · intro pending hp
    exact .cons (step_opening hp) (.cons rfl (.cons (step_number n _) (.cons rfl .nil)))

theorem arithmetic {op : Operator} {s : String} (hscan : ∀ cs, scan .nothing (s.toList ++ ' ' :: cs) =
      .symbol s :: scan .nothing cs) (hop : Operator.ofSymbol? s = some op) (hl : Operand l x) (hr : Operand r y) :
    Operand ("((" ++ l ++ " " ++ s ++ " " ++ r ++ ") | 0)") (.binary .or (.binary op x y) (.number 0)) := by
  obtain ⟨ls, hlex, hread⟩ := hl
  obtain ⟨rs, hlex', hread'⟩ := hr
  refine ⟨.symbol "(" :: .symbol "(" :: (ls ++ .symbol s :: (rs ++
    [.symbol ")", .symbol "|", .word "0", .symbol ")"])), ?_, ?_⟩
  · intro rest _
    have hcs : ("((" ++ l ++ " " ++ s ++ " " ++ r ++ ") | 0)").toList ++ rest = '(' :: '(' :: (l.toList ++ ' ' ::
        (s.toList ++ ' ' :: (r.toList ++ ')' :: ' ' :: '|' :: ' ' :: '0' :: ')' :: rest))) := by simp
    have hend : scan .nothing (' ' :: '|' :: ' ' :: '0' :: ')' :: rest) =
        .symbol "|" :: .word "0" :: scan .nothing (')' :: rest) := rfl
    rw [hcs, scan_opening, scan_opening, hlex _ (.cons (by decide) _), scan_blank, hscan,
      hlex' _ (.cons (by decide) _), scan_closing, hend, scan_closing]
    simp
  · intro pending hp
    refine .cons (step_opening hp) (.cons rfl ((hread _ (by simp)).append (.cons (step_operator hop rfl) ?_)))
    have hor : Operator.ofSymbol? "|" = some .or := rfl
    exact (hread' _ (by simp)).append (.cons (step_closing_binary op x y) (.cons (step_operator hor rfl)
      (.cons (step_number 0 _) (.cons (step_closing_binary ..) .nil))))

theorem imul (hl : Operand l x) (hr : Operand r y) : Operand ("Math.imul(" ++ l ++ ", " ++ r ++ ")") (.imul x y) := by
  obtain ⟨ls, hlex, hread⟩ := hl
  obtain ⟨rs, hlex', hread'⟩ := hr
  refine ⟨.word "Math.imul" :: .symbol "(" :: (ls ++ .symbol "," :: (rs ++ [.symbol ")"])), ?_, ?_⟩
  · intro rest _
    have hcs : ("Math.imul(" ++ l ++ ", " ++ r ++ ")").toList ++ rest =
        "Math.imul".toList ++ '(' :: (l.toList ++ ',' :: ' ' :: (r.toList ++ ')' :: rest)) := by simp
    have hname : IsToken "Math.imul" := ⟨by decide, List.all_eq_true.mp (by decide)⟩
    have hcomma (cs : List Char) : scan .nothing (',' :: ' ' :: cs) = .symbol "," :: scan .nothing cs := rfl
    rw [hcs, hname.scan (by simp; decide), scan_opening, hlex _ (.cons (by decide) _), hcomma,
      hlex' _ (.cons (by decide) _), scan_closing]
    simp
  · intro pending hp
    refine .cons rfl (.cons rfl ((hread _ (by simp)).append (.cons rfl ((hread' _ (by simp)).append ?_))))
    exact .cons rfl .nil

theorem choice {op : Operator} {s : String} (hscan : ∀ cs, scan .nothing (s.toList ++ ' ' :: cs) =
      .symbol s :: scan .nothing cs) (hop : Operator.ofSymbol? s = some op) (hl : Operand l x) (hr : Operand r y) :
    Operand ("(" ++ (l ++ " " ++ s ++ " " ++ r) ++ " ? 1 : 0)") (.choose (.binary op x y) (.number 1) (.number 0)) := by
  obtain ⟨ls, hlex, hread⟩ := hl
  obtain ⟨rs, hlex', hread'⟩ := hr
  refine ⟨.symbol "(" :: (ls ++ .symbol s :: (rs ++
    [.symbol "?", .word "1", .symbol ":", .word "0", .symbol ")"])), ?_, ?_⟩
  · intro rest _
    have hcs : ("(" ++ (l ++ " " ++ s ++ " " ++ r) ++ " ? 1 : 0)").toList ++ rest = '(' :: (l.toList ++ ' ' ::
        (s.toList ++ ' ' :: (r.toList ++ ' ' :: '?' :: ' ' :: '1' :: ' ' :: ':' :: ' ' :: '0' :: ')' :: rest))) := by
      simp
    have hend : scan .nothing ('?' :: ' ' :: '1' :: ' ' :: ':' :: ' ' :: '0' :: ')' :: rest) =
        .symbol "?" :: .word "1" :: .symbol ":" :: .word "0" :: scan .nothing (')' :: rest) := rfl
    rw [hcs, scan_opening, hlex _ (.cons (by decide) _), scan_blank, hscan, hlex' _ (.cons (by decide) _), scan_blank,
      hend, scan_closing]
    simp
  · intro pending hp
    refine .cons (step_opening hp) ((hread _ (by simp)).append (.cons (step_operator hop rfl) ?_))
    exact (hread' _ (by simp)).append (.cons (step_question op x y) (.cons (step_number 1 _) (.cons (step_colon ..)
      (.cons (step_number 0 _) (.cons (step_closing_otherwise ..) .nil)))))

end Operand

/-! Values. -/

namespace Value

theorem toWord_intCast (i : Int) : (number i).toWord = Int32.ofInt i := by
  simp [toWord, toNumber]

theorem toWord_ofWord (w : Int32) : (ofWord w).toWord = w := by
  rw [ofWord, toWord_intCast, Int32.ofInt_toInt]

theorem tdiv_mul {c : Int} (hc : c ≠ 0) (a b : Int) : (c * a).tdiv (c * b) = a.tdiv b := by
  obtain hneg | hpos := lt_or_gt_of_ne hc
  · have h := Int.mul_tdiv_mul_of_pos a b (neg_pos.mpr hneg)
    rwa [neg_mul, neg_mul, Int.neg_tdiv, Int.tdiv_neg, neg_neg] at h
  · exact Int.mul_tdiv_mul_of_pos a b hpos

/-- A quotient without its fraction is cut off toward zero. -/
theorem toWord_div {b : Int} (hb : b ≠ 0) (a : Int) : (number (a / b)).toWord = Int32.ofInt (a.tdiv b) := by
  have hden : ((a / b : ℚ).den : Int) ≠ 0 := Int.natCast_ne_zero.mpr (Rat.den_ne_zero _)
  have hcross : (a / b : ℚ).num * b = a * (a / b : ℚ).den := by
    have h := (div_eq_div_iff (by exact_mod_cast hden) (by exact_mod_cast hb)).mp (Rat.num_div_den (a / b : ℚ))
    exact_mod_cast h
  have hquotient : (a / b : ℚ).num.tdiv (a / b : ℚ).den = a.tdiv b :=
    calc (a / b : ℚ).num.tdiv (a / b : ℚ).den
        = (b * (a / b : ℚ).num).tdiv (b * (a / b : ℚ).den) := (tdiv_mul hb _ _).symm
      _ = ((a / b : ℚ).den * a).tdiv ((a / b : ℚ).den * b) := by rw [mul_comm b, hcross, mul_comm a, mul_comm b]
      _ = a.tdiv b := tdiv_mul hden a b
  exact congrArg Int32.ofInt hquotient

end Value

/-- The term has the value of the expression, where the names of the script stand for what those of the expression
stand for. -/
def Denotes (e : Expr) (x : Term) : Prop :=
  ∀ env js : String → Int32, (∀ name ∈ e.names, js (Script.nameOf name) = env name) →
    ∀ v, e.value? env = some v → x.eval js = some (.ofWord v)

def operatorOf : BinOp → Operator
  | .add => .add
  | .sub => .sub
  | .mul => .mul
  | .div => .div
  | .lt => .lt
  | .le => .le
  | .eq => .same
  | .ne => .differ
  | .gt => .gt
  | .ge => .ge

/-- How an operator is written in a script. -/
def symbolOf : BinOp → String
  | .eq => "==="
  | .ne => "!=="
  | op => op.symbol

theorem ofSymbol?_symbolOf (op : BinOp) : Operator.ofSymbol? (symbolOf op) = some (operatorOf op) := by
  cases op <;> rfl

theorem scan_symbolOf (op : BinOp) (cs : List Char) :
    scan .nothing ((symbolOf op).toList ++ ' ' :: cs) = .symbol (symbolOf op) :: scan .nothing cs := by
  cases op <;> rfl

theorem operation_relational {op : BinOp} (h : op.level = .relational) (l r : String) :
    Script.operation op l r = l ++ " " ++ symbolOf op ++ " " ++ r := by
  cases op with
  | add | sub | mul | div => cases h
  | lt | le | gt | ge => rfl
  | eq | ne =>
    apply String.toList_inj.mp
    simp [Script.operation, symbolOf]

section

variable {op : BinOp} {left right : Expr} {line : Nat} {x y : Term} {env : String → Int32} {v : Int32}

theorem value?_binary (h : (Expr.binary op left right line).value? env = some v) :
    ∃ l r, left.value? env = some l ∧ right.value? env = some r ∧ op.apply l r = some v := by
  obtain ⟨l, hl, h⟩ := Option.bind_eq_some_iff.mp h
  obtain ⟨r, hr, h⟩ := Option.bind_eq_some_iff.mp h
  exact ⟨l, r, hl, hr, h⟩

theorem Denotes.apply {js : String → Int32} (hl : Denotes left x) (hr : Denotes right y)
    (hjs : ∀ name ∈ (Expr.binary op left right line).names, js (Script.nameOf name) = env name)
    (h : (Expr.binary op left right line).value? env = some v) :
    ∃ l r, op.apply l r = some v ∧ x.eval js = some (.ofWord l) ∧ y.eval js = some (.ofWord r) := by
  obtain ⟨l, r, hvl, hvr, hop⟩ := value?_binary h
  exact ⟨l, r, hop, hl env js (fun n hn => hjs n (List.mem_append_left _ hn)) l hvl,
    hr env js (fun n hn => hjs n (List.mem_append_right _ hn)) r hvr⟩

theorem apply_relational (h : op.level = .relational) {l r : Int32} (hop : op.apply l r = some v) :
    ∃ b, (operatorOf op).apply (.ofWord l) (.ofWord r) = some (.bool b) ∧ v = BinOp.truth b := by
  cases op with
  | add | sub | mul | div => cases h
  | lt | le | eq | ne | gt | ge =>
    refine ⟨_, rfl, ?_⟩
    rw [← Option.some.inj hop]
    simp [Value.ofWord, Value.toNumber, Int32.lt_iff_toInt_lt, Int32.le_iff_toInt_le, ← Int32.toInt_inj]

theorem eval_binary {js : String → Int32} {a b : Value} {o : Operator} (hx : x.eval js = some a)
    (hy : y.eval js = some b) : (Term.binary o x y).eval js = o.apply a b := by
  rw [Term.eval, hx, hy]
  rfl

theorem eval_cut {js : String → Int32} {a : Value} (hx : x.eval js = some a) :
    (Term.binary .or x (.number 0)).eval js = some (.ofWord a.toWord) := by
  have hzero : (Value.number (0 : Nat)).toWord = 0 := by
    have := Value.toWord_intCast 0
    simpa using this
  rw [eval_binary hx rfl, Operator.apply, hzero, Int32.or_zero]

theorem eval_arithmetic {js : String → Int32} {l r : Int32} (h : op ∈ [.add, .sub, .div])
    (hx : x.eval js = some (.ofWord l)) (hy : y.eval js = some (.ofWord r)) (hop : op.apply l r = some v) :
    (Term.binary .or (.binary (operatorOf op) x y) (.number 0)).eval js = some (.ofWord v) := by
  have hcut {q : ℚ} (happly : (operatorOf op).apply (.ofWord l) (.ofWord r) = some (.number q))
      (hq : (Value.number q).toWord = v) :
      (Term.binary .or (.binary (operatorOf op) x y) (.number 0)).eval js = some (.ofWord v) := by
    rw [← hq]
    exact eval_cut ((eval_binary hx hy).trans happly)
  simp only [List.mem_cons, List.not_mem_nil, or_false] at h
  rcases h with rfl | rfl | rfl
  · refine hcut rfl ?_
    rw [← Option.some.inj hop, Value.ofWord, Value.ofWord, Value.toNumber, Value.toNumber, ← Int.cast_add,
      Value.toWord_intCast, Int32.ofInt_add, Int32.ofInt_toInt, Int32.ofInt_toInt]
  · refine hcut rfl ?_
    rw [← Option.some.inj hop, Value.ofWord, Value.ofWord, Value.toNumber, Value.toNumber, ← Int.cast_sub,
      Value.toWord_intCast, Int32.ofInt_sub, Int32.ofInt_toInt, Int32.ofInt_toInt]
  · simp only [BinOp.apply] at hop
    split at hop
    · cases hop
    · next hr =>
      have hzero : r.toInt ≠ 0 := fun heq => hr (Int32.toInt_inj.mp heq)
      have hdivisor : (r.toInt : ℚ) ≠ 0 := by exact_mod_cast hzero
      refine hcut (q := l.toInt / r.toInt) (if_neg hdivisor) ?_
      rw [← Option.some.inj hop, Value.toWord_div hzero, Int32.ofInt_tdiv l.minValue_le_toInt l.toInt_le
        r.minValue_le_toInt r.toInt_le, Int32.ofInt_toInt, Int32.ofInt_toInt]

theorem eval_choice {js : String → Int32} {b : Bool} (hx : x.eval js = some (.bool b)) :
    (Term.choose x (.number 1) (.number 0)).eval js = some (.ofWord (BinOp.truth b)) := by
  rw [Term.eval, hx]
  cases b <;> simp [Value.isTrue, Term.eval, Value.ofWord, BinOp.truth]

theorem reads_const (v : Int32) :
    ∃ x, Operand (Script.intText (.const v)) x ∧ ∀ js, x.eval js = some (.ofWord v) := by
  unfold Script.intText Text.ofWord Value.ofWord
  by_cases hneg : v < 0
  · obtain ⟨n, hn⟩ : ∃ n, v.toInt = Int.negSucc n := Int.eq_negSucc_of_lt_zero (Int32.lt_iff_toInt_lt.mp hneg)
    refine ⟨.negate (.number (n + 1)), ?_, ?_⟩
    · have htext : "(" ++ (Int.negSucc n).repr ++ ")" = "(-" ++ Text.ofNat (n + 1) ++ ")" := by
        apply String.toList_inj.mp
        simp [Int.repr, Text.ofNat]
      rw [if_pos hneg, hn, htext]
      exact .negative (n + 1)
    · intro js
      rw [hn]
      simp [Term.eval, Value.toNumber]
  · obtain ⟨n, hn⟩ : ∃ n : Nat, v.toInt = n := Int.eq_ofNat_of_zero_le (by
      have := mt Int32.lt_iff_toInt_lt.mpr hneg
      simpa using this)
    refine ⟨.number n, ?_, ?_⟩
    · rw [if_neg hneg, hn]
      exact .number n
    · intro js
      rw [hn]
      rfl

theorem operation_arithmetic (h : op ∈ [.add, .sub, .div]) (l r : String) :
    Script.operation op l r = "((" ++ l ++ " " ++ symbolOf op ++ " " ++ r ++ ") | 0)" := by
  simp only [List.mem_cons, List.not_mem_nil, or_false] at h
  rcases h with rfl | rfl | rfl <;> rfl

/-- A comparison, a product, or an operation that is cut to a word. -/
theorem relational_or_arithmetic (op : BinOp) : op.level = .relational ∨ op = .mul ∨ op ∈ [.add, .sub, .div] := by
  cases op <;> decide

theorem not_relational (h : op = .mul ∨ op ∈ [.add, .sub, .div]) : op.level ≠ .relational := by
  revert h
  cases op <;> decide

theorem Denotes.choice (hrel : op.level = .relational) (hl : Denotes left x) (hr : Denotes right y) :
    Denotes (.binary op left right line) (.choose (.binary (operatorOf op) x y) (.number 1) (.number 0)) := by
  intro env js hjs v hv
  obtain ⟨l, r, hop, hx, hy⟩ := hl.apply hr hjs hv
  obtain ⟨b, hb, rfl⟩ := apply_relational hrel hop
  exact eval_choice ((eval_binary hx hy).trans hb)

theorem Denotes.imul (hl : Denotes left x) (hr : Denotes right y) :
    Denotes (.binary .mul left right line) (.imul x y) := by
  intro env js hjs v hv
  obtain ⟨l, r, hop, hx, hy⟩ := hl.apply hr hjs hv
  obtain rfl := Option.some.inj hop
  have hproduct : (Value.ofWord l).toWord * (Value.ofWord r).toWord = l * r := by
    rw [Value.toWord_ofWord, Value.toWord_ofWord]
  rw [Term.eval, hx, hy]
  exact congrArg (fun w => some (Value.ofWord w)) hproduct

theorem Denotes.arithmetic (h : op ∈ [.add, .sub, .div]) (hl : Denotes left x) (hr : Denotes right y) :
    Denotes (.binary op left right line) (.binary .or (.binary (operatorOf op) x y) (.number 0)) := by
  intro env js hjs v hv
  obtain ⟨l, r, hop, hx, hy⟩ := hl.apply hr hjs hv
  exact eval_arithmetic h hx hy hop

/-- The text of an expression as a number is one operand, with the value of the expression. -/
theorem reads_int {e : Expr} (hw : ∀ name ∈ e.names, IsWord name) :
    ∃ x, Operand (Script.intText (e.named Script.nameOf)) x ∧ Denotes e x := by
  induction e with
  | literal value line =>
    obtain ⟨x, hx, heval⟩ := reads_const value
    refine ⟨x, hx, ?_⟩
    intro env js _ v hv
    obtain rfl := Option.some.inj hv
    exact heval js
  | ident name line =>
    refine ⟨_, .name (hw name (List.mem_singleton_self name)), ?_⟩
    intro env js hjs v hv
    obtain rfl := Option.some.inj hv
    rw [Term.eval, hjs name (List.mem_singleton_self name)]
  | binary op left right line ihl ihr =>
    obtain ⟨x, hx, hdx⟩ := ihl fun n hn => hw n (List.mem_append_left _ hn)
    obtain ⟨y, hy, hdy⟩ := ihr fun n hn => hw n (List.mem_append_right _ hn)
    rw [Expr.named, Script.intText]
    rcases relational_or_arithmetic op with hrel | hother
    · refine ⟨_, ?_, hdx.choice hrel hdy⟩
      rw [if_pos hrel, operation_relational hrel]
      exact .choice (scan_symbolOf op) (ofSymbol?_symbolOf op) hx hy
    rw [if_neg (not_relational hother)]
    rcases hother with rfl | harith
    · exact ⟨_, .imul hx hy, hdx.imul hdy⟩
    · refine ⟨_, ?_, hdx.arithmetic harith hdy⟩
      rw [operation_arithmetic harith]
      exact .arithmetic (scan_symbolOf op) (ofSymbol?_symbolOf op) hx hy

end

/-- A text that is read as an expression, up to its end. -/
def Expression (text : String) (x : Term) : Prop := ∃ ts, Lexes text ts ∧ Term.ofTokens? ts = some x

theorem Reads.ofTokens? {ts : List Token} {x : Term} (h : Reads ⟨[], none⟩ ts ⟨[], some x⟩) :
    Term.ofTokens? ts = some x := by
  unfold Term.ofTokens?
  rw [h]
  rfl

/-- The end of the text is the end of an operation. -/
theorem Reads.ofTokens?_binary {op : Operator} {ts : List Token} {x y : Term}
    (h : Reads ⟨[], none⟩ ts ⟨[.binary op x], some y⟩) : Term.ofTokens? ts = some (.binary op x y) := by
  unfold Term.ofTokens?
  rw [h]
  simp [Reading.finish, reduce]

theorem Operand.expression {text : String} {x : Term} (h : Operand text x) : Expression text x := by
  obtain ⟨ts, hlex, hread⟩ := h
  exact ⟨ts, hlex, (hread [] (by simp)).ofTokens?⟩

theorem Expression.ofText? {text : String} {x : Term} (h : Expression text x) : Term.ofText? text = some x := by
  obtain ⟨ts, hlex, hread⟩ := h
  have htokens : tokens text = ts := by
    have := hlex [] (by simp [Boundary])
    simpa [tokens, scan] using this
  rw [Term.ofText?, htokens, hread]

theorem Expression.comparison {op : Operator} {s l r : String} {x y : Term}
    (hscan : ∀ cs, scan .nothing (s.toList ++ ' ' :: cs) = .symbol s :: scan .nothing cs)
    (hop : Operator.ofSymbol? s = some op) (hl : Operand l x) (hr : Operand r y) :
    Expression (l ++ " " ++ s ++ " " ++ r) (.binary op x y) := by
  obtain ⟨ls, hlex, hread⟩ := hl
  obtain ⟨rs, hlex', hread'⟩ := hr
  refine ⟨ls ++ .symbol s :: rs, ?_, ?_⟩
  · intro rest hrest
    have hcs : (l ++ " " ++ s ++ " " ++ r).toList ++ rest =
        l.toList ++ ' ' :: (s.toList ++ ' ' :: (r.toList ++ rest)) := by simp
    rw [hcs, hlex _ (.cons (by decide) _), scan_blank, hscan, hlex' _ hrest]
    simp
  · apply Reads.ofTokens?_binary
    exact (hread [] (by simp)).append (.cons (step_operator hop rfl) (hread' _ (by simp)))

theorem isTrue_ofWord (v : Int32) : (Value.ofWord v).isTrue = true ↔ v ≠ 0 := by
  have hzero : (v.toInt : ℚ) = 0 ↔ v = 0 := Rat.intCast_inj.trans (Int32.toInt_inj (y := 0))
  simp [Value.ofWord, Value.isTrue, hzero]

/-- The text of an expression as a condition counts as true if its value is not zero. -/
theorem reads_condition {e : Expr} (hw : ∀ name ∈ e.names, IsWord name) :
    ∃ y, Expression (Script.conditionText (e.named Script.nameOf)) y ∧
      ∀ env js : String → Int32, (∀ name ∈ e.names, js (Script.nameOf name) = env name) →
        ∀ v, e.value? env = some v → ∃ w, y.eval js = some w ∧ (w.isTrue = true ↔ v ≠ 0) := by
  -- all but comparisons are the same as where they are numbers
  have hnumber (htext : Script.conditionText (e.named Script.nameOf) = Script.intText (e.named Script.nameOf)) :
      ∃ y, Expression (Script.conditionText (e.named Script.nameOf)) y ∧
        ∀ env js : String → Int32, (∀ name ∈ e.names, js (Script.nameOf name) = env name) →
          ∀ v, e.value? env = some v → ∃ w, y.eval js = some w ∧ (w.isTrue = true ↔ v ≠ 0) := by
    obtain ⟨x, hx, hdx⟩ := reads_int hw
    exact ⟨x, htext ▸ hx.expression, fun env js hjs v hv => ⟨_, hdx env js hjs v hv, isTrue_ofWord v⟩⟩
  match e with
  | .literal value line | .ident name line => exact hnumber rfl
  | .binary op left right line =>
    by_cases hrel : op.level = .relational
    · obtain ⟨x, hx, hdx⟩ := reads_int fun n hn => hw n (List.mem_append_left _ hn)
      obtain ⟨y, hy, hdy⟩ := reads_int fun n hn => hw n (List.mem_append_right _ hn)
      refine ⟨.binary (operatorOf op) x y, ?_, ?_⟩
      · rw [Expr.named, Script.conditionText, operation_relational hrel]
        exact .comparison (scan_symbolOf op) (ofSymbol?_symbolOf op) hx hy
      · intro env js hjs v hv
        obtain ⟨l, r, hop, hl, hr⟩ := hdx.apply hdy hjs hv
        obtain ⟨b, hb, rfl⟩ := apply_relational hrel hop
        refine ⟨.bool b, (eval_binary hl hr).trans hb, ?_⟩
        cases b <;> decide
    · exact hnumber (if_neg hrel).symm

end Js

end PLZero
