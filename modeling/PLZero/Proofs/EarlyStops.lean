import PLZero.Proofs.CursorReads

/-! The token that an error names. No program goes on from the tokens up to and including it, but for one kind of
stop: where the values that a `write` has in parentheses cannot be read, they are read a second time without the list,
and that stops at the first comma. The tokens up to this comma are the beginning of a program. -/

namespace PLZero

open Token (shown)

variable {α β : Type} {tokens : List Token} {c d : Cursor}

theorem Token.shown_append_add {pre us : List Token} {i : Nat} {t : Token} (h : us[i]? = some t) :
    shown (pre ++ us) (pre.length + i) = t := by
  rw [shown, List.getElem?_append_right (Nat.le_add_right _ _), Nat.add_sub_cancel_left, h]
  rfl

theorem Token.shown_append (pre us : List Token) {t : Token} : shown (pre ++ t :: us) pre.length = t :=
  shown_append_add (i := 0) rfl

theorem Token.drop_eq_shown {i : Nat} (h : i < tokens.length) :
    tokens.drop i = shown tokens i :: tokens.drop (i + 1) := by
  rw [List.drop_eq_getElem_cons h, shown, List.getElem?_eq_getElem h]
  rfl

theorem Cursor.advance_position (h : c.position < tokens.length) : (c.advance tokens).position = c.position + 1 := by
  rw [advance_of_lt h]
  rfl

theorem SameUpTo.take {k : Nat} (hk : k < tokens.length) (us : List Token) :
    SameUpTo k tokens (tokens.take (k + 1) ++ us) := by
  intro i hi
  rw [List.getElem?_append_left (by simp; omega), List.getElem?_take_of_lt (by omega)]

namespace Walk

/-- No statement starts there. -/
def Closes (rest : List Token) : Prop := ∀ pre, Reader.startsStatement (shown (pre ++ rest) pre.length) = false

/-- In front of every rest that `F` allows, the walk takes the tokens of `tail`. -/
def Finishes (size q : Nat) (tail : List Token) (F : List Token → Prop) (w : Walk α) : Prop :=
  ∀ pre rest d, F rest → d.position = pre.length → q ≤ pre.length → (pre ++ (tail ++ rest)).length ≤ size →
    ∃ a b, w (pre ++ (tail ++ rest)) d = some (.ok a, b) ∧ b.position = pre.length + tail.length

namespace Finishes

variable {size q : Nat} {tail : List Token} {F : List Token → Prop} {w : Walk α} {f : α → Walk β} {t : Token}

theorem pure {a : α} : Finishes size q [] F (Pure.pure a) := fun _ _ d _ hd _ _ => ⟨a, d, rfl, hd⟩

theorem token (hw : ∀ tokens d, shown tokens d.position = t → ∃ a, w tokens d = some (.ok a, d.advance tokens))
    (hf : ∀ a, Finishes size q tail F (f a)) : Finishes size q (t :: tail) F (w >>= f) := by
  intro pre rest d hF hd hq hsize
  obtain ⟨a, ha⟩ := hw (pre ++ (t :: tail ++ rest)) d (by rw [hd]; exact Token.shown_append _ _)
  have hlt : d.position < (pre ++ (t :: tail ++ rest)).length := by simp [hd]
  have hsplit : pre ++ (t :: tail ++ rest) = pre ++ [t] ++ (tail ++ rest) := by simp
  obtain ⟨b, d', hb, hd'⟩ := hf a (pre ++ [t]) rest (d.advance (pre ++ (t :: tail ++ rest))) hF
    (by rw [Cursor.advance_of_lt hlt]; simp [Cursor.moveTo, hd]) (by simp; omega) (by rwa [← hsplit])
  refine ⟨b, d', (bind_ok ha).trans (hsplit ▸ hb), ?_⟩
  simp only [hd', List.length_append, List.length_cons, List.length_nil]
  omega

theorem keyword {word : String} {line : Nat} {f : Token → Walk β} (hf : ∀ a, Finishes size q tail F (f a)) :
    Finishes size q (⟨.keyword, word, line⟩ :: tail) F (Walk.keyword word >>= f) := by
  refine token (fun tokens d h => ⟨⟨.keyword, word, line⟩, ?_⟩) hf
  change expectText .keyword word (.keyword word) tokens d = _
  rw [expect_text_eq, h, if_pos (by simp [Token.is]), advance, h]

theorem semicolon {text : String} {line : Nat} {f : Unit → Walk β} (hf : ∀ a, Finishes size q tail F (f a)) :
    Finishes size q (⟨.semicolon, text, line⟩ :: tail) F (Walk.skip .semicolon >>= f) := by
  refine token (fun tokens d h => ⟨(), ?_⟩) hf
  change (if (shown tokens d.position).kind = .semicolon then _ else _ : Walk Unit) tokens d = _
  rw [h, if_pos rfl]
  rfl

end Finishes

section Values

variable {n : Nat}

theorem chain_end {level : Level} {operand : Walk Expr} {left : Expr}
    (h : Reader.operatorAt level (shown tokens c.position) = none) :
    chain level operand (n + 1) left tokens c = some (.ok left, c) := by
  have hlook : (current : Walk Token) tokens c = some (.ok (shown tokens c.position), c) := rfl
  rw [chain, bind_ok hlook]
  simp only [h]
  rfl

theorem chained_single {level : Level} {operand : Walk Expr} {v : Expr} (hv : operand tokens c = some (.ok v, d))
    (h : Reader.operatorAt level (shown tokens d.position) = none) :
    chained (n + 1) level operand tokens c = some (.ok v, d) := (bind_ok hv).trans (chain_end h)

theorem many_more {more : Token → Bool} {item : Walk α} (h : more (shown tokens c.position) = true) :
    many more item (n + 1) tokens c =
      (item >>= fun x => many more item n >>= fun xs => pure (x :: xs)) tokens c := by
  change (if more (shown tokens c.position) then _ else _ : Walk (List α)) tokens c = _
  rw [if_pos h]

theorem expr_number {v : Int32} (hk : (shown tokens c.position).kind = .number)
    (hv : Text.readWord (shown tokens c.position).text.toList = some v)
    (hnext : (shown tokens (c.advance tokens).position).kind ≠ .operator) :
    expr (n + 1) tokens c = some (.ok (.literal v (shown tokens c.position).line), c.advance tokens) := by
  have hnone (level : Level) := Reader.operatorAt_eq_none hnext level
  have hnumber : number tokens c = some (.ok v, c.advance tokens) := by
    rw [number_eq, if_pos hk, numberAt, hv]
    rfl
  have hfactor : factor (exprWithin (n + 1) n) tokens c =
      some (.ok (.literal v (shown tokens c.position).line), c.advance tokens) := by
    have hlook : (current : Walk Token) tokens c = some (.ok (shown tokens c.position), c) := rfl
    rw [factor, bind_ok hlook]
    simp only [hk]
    exact bind_ok hnumber
  have hsum : sum (n + 1) (exprWithin (n + 1) n) tokens c =
      some (.ok (.literal v (shown tokens c.position).line), c.advance tokens) :=
    chained_single (chained_single hfactor (hnone .multiplicative)) (hnone .additive)
  have hlook : (current : Walk Token) tokens (c.advance tokens) = some (.ok (shown tokens (c.advance tokens).position), _) :=
    rfl
  rw [expr, exprWithin, comparison, bind_ok hsum, bind_ok hlook]
  simp only [hnone]
  rfl

theorem listOrBare_pair {v : Expr} {i : Int32} (line : Nat) {b : Cursor}
    (hopen : (shown tokens c.position).is .parenthesis "(" = true)
    (hv : expr (n + 2) tokens (c.advance tokens) = some (.ok v, b)) (hcomma : (shown tokens b.position).kind = .comma)
    (hnumber : (shown tokens (b.position + 1)).kind = .number)
    (hi : Text.readWord (shown tokens (b.position + 1)).text.toList = some i)
    (hclose : (shown tokens (b.position + 2)).is .parenthesis ")" = true)
    (hsemi : (shown tokens (b.position + 3)).kind = .semicolon) :
    ∃ s d, listOrBare (n + 2) line tokens c = some (.ok s, d) ∧ d.position = b.position + 4 := by
  have hcloseKind := (Token.is_iff.mp hclose).1
  have hstep {b' : Cursor} {k : Nat} (hb' : b'.position = b.position + k)
      (hne : (shown tokens (b.position + k)).kind ≠ .eof) : (b'.advance tokens).position = b.position + (k + 1) := by
    rw [Cursor.advance_position (by rw [hb']; exact Token.lt_of_shown hne), hb']
    rfl
  have h1 : (b.advance tokens).position = b.position + 1 := hstep rfl (by simp [hcomma])
  have h2 : ((b.advance tokens).advance tokens).position = b.position + 2 := hstep h1 (by simp [hnumber])
  have h3 : (((b.advance tokens).advance tokens).advance tokens).position = b.position + 3 :=
    hstep h2 (by simp [hcloseKind])
  have hsecond := expr_number (n := n + 1) (c := b.advance tokens) (by rwa [h1]) (by rwa [h1]) (by rw [h2, hcloseKind]; decide)
  have hfurther : (do let _ ← advance; expr (n + 2) : Walk Expr) tokens b = _ := (bind_ok rfl).trans hsecond
  have hitems : items (n + 2) (expr (n + 2)) tokens (c.advance tokens) =
      some (.ok [v, .literal i (shown tokens (b.advance tokens).position).line], (b.advance tokens).advance tokens) := by
    refine (bind_ok hv).trans ((bind_ok ((many_more (by simpa using hcomma)).trans ((bind_ok hfurther).trans
      ((bind_ok (many_end ?_)).trans rfl)))).trans rfl)
    rw [h2, hcloseKind]
    rfl
  have hlist : parenthesized (n + 2) tokens c = some (.ok [v, .literal i (shown tokens (b.advance tokens).position).line],
      ((b.advance tokens).advance tokens).advance tokens) := by
    rw [parenthesized_open hopen, bind_ok hitems, bind_ok (by rw [closeParen_eq, h2, if_pos hclose])]
    rfl
  refine ⟨.write [v, .literal i (shown tokens (b.advance tokens).position).line] line, _, ?_, hstep h3 (by simp [hsemi])⟩
  rw [listOrBare, hlist]
  simp only [h3, hsemi, if_true]

end Values

/-- The tokens up to index `k` can be completed in front of every rest that `F` allows. -/
def Completable (size r : Nat) (F : List Token → Prop) (w : Walk α) (tokens : List Token) (c : Cursor) (k : Nat) : Prop :=
  c.position ≤ k ∧ k < tokens.length ∧ ∃ tail : List Token, tail.length + r ≤ 2 * k ∧
    ∀ rest, F rest → (tokens.take (k + 1) ++ (tail ++ rest)).length ≤ size →
      ∃ a b, w (tokens.take (k + 1) ++ (tail ++ rest)) c = some (.ok a, b) ∧ b.position = k + 1 + tail.length

/-- Where the walk stops early, it can be completed. -/
def Completes (size r : Nat) (F : List Token → Prop) (w : Walk α) (tokens : List Token) (c : Cursor) : Prop :=
  ∀ e d, w tokens c = some (.error e, d) → e.index < e.furthest → Completable size r F w tokens c e.index

section

variable {size r k : Nat} {tail : List Token} {F F' : List Token → Prop} {w : Walk α} {f : α → Walk β} {plain : Prop}

theorem Completable.after {a : α} (h : Completable size r F (f a) tokens d k) (hw : RegularAt plain w tokens c)
    (ha : w tokens c = some (.ok a, d)) : Completable size r F (w >>= f) tokens c k := by
  obtain ⟨hle, hk, tail, htail, hdone⟩ := h
  refine ⟨Nat.le_trans (hw.keeps ha).position hle, hk, tail, htail, fun rest hrest hsize => ?_⟩
  rw [bind_ok (hw.sees ha ((SameUpTo.take hk _).mono hle))]
  exact hdone rest hrest hsize

theorem Completable.finish (h : Completable size (r + tail.length) F' w tokens c k)
    (hfin : ∀ a, Finishes size (c.position + 1) tail F (f a)) (hF : ∀ rest, F rest → F' (tail ++ rest)) :
    Completable size r F (w >>= f) tokens c k := by
  obtain ⟨hle, hk, tail', htail, hdone⟩ := h
  refine ⟨hle, hk, tail' ++ tail, by simp; omega, fun rest hrest hsize => ?_⟩
  rw [List.append_assoc] at hsize ⊢
  obtain ⟨a, b, ha, hb⟩ := hdone (tail ++ rest) (hF rest hrest) hsize
  have hlen : (tokens.take (k + 1) ++ tail').length = k + 1 + tail'.length := by simp; omega
  obtain ⟨a', b', ha', hb'⟩ := hfin a (tokens.take (k + 1) ++ tail') rest b hrest (hb.trans hlen.symm) (by omega)
    (by rwa [List.append_assoc])
  rw [List.append_assoc] at ha'
  refine ⟨a', b', (bind_ok ha).trans ha', ?_⟩
  rw [hb', hlen, List.length_append]
  omega

end

namespace Completes

variable {size r : Nat} {tail : List Token} {F F' : List Token → Prop} {w : Walk α} {f : α → Walk β}
  {bound : Nat}

theorem plain (h : RegularAt True w tokens c) : Completes size r F w tokens c :=
  fun _ _ he hlt => absurd trivial ((h.stops he).2.early hlt).1

theorem mono {r' : Nat} (h : Completes size r' F w tokens c) (hr : r ≤ r') : Completes size r F w tokens c := by
  intro e d he hlt
  obtain ⟨hle, hk, tail, htail, hdone⟩ := h e d he hlt
  exact ⟨hle, hk, tail, by omega, hdone⟩

theorem restrict (h : Completes size r F' w tokens c) (hF : ∀ rest, F rest → F' rest) : Completes size r F w tokens c := by
  intro e d he hlt
  obtain ⟨hle, hk, tail, htail, hdone⟩ := h e d he hlt
  exact ⟨hle, hk, tail, htail, fun rest hrest => hdone rest (hF rest hrest)⟩

/-- The stop is in the second part, or in the first one, and then the second one is finished by `tail`. -/
theorem bind (tail : List Token) (hw : RegularAt False w tokens c)
    (hfirst : Completes size (r + tail.length) F' w tokens c)
    (hsecond : ∀ a d, w tokens c = some (.ok a, d) → Completes size r F (f a) tokens d)
    (hfin : ∀ a, Finishes size (c.position + 1) tail F (f a)) (hF : ∀ rest, F rest → F' (tail ++ rest)) :
    Completes size r F (w >>= f) tokens c := by
  intro e d h hlt
  obtain ⟨a, b, ha, hb⟩ | ⟨e', heq, he⟩ := of_bind h
  · exact (hsecond a b ha e d hb hlt).after hw ha
  · cases heq
    exact (hfirst e d he hlt).finish hfin hF

theorem bind_plain (hw : RegularAt True w tokens c)
    (hsecond : ∀ a d, w tokens c = some (.ok a, d) → Completes size r F (f a) tokens d) :
    Completes size r F (w >>= f) tokens c := by
  intro e d h hlt
  obtain ⟨a, b, ha, hb⟩ | ⟨e', heq, he⟩ := of_bind h
  · exact (hsecond a b ha e d hb hlt).after hw ha
  · cases heq
    exact absurd trivial ((hw.stops he).2.early hlt).1

theorem head (hw : RegularAt True w tokens c)
    (hsecond : ∀ a d, c.position ≤ d.position → Completes size r F (f a) tokens d) :
    Completes size r F (w >>= f) tokens c :=
  bind_plain hw fun a d h => hsecond a d (hw.keeps h).position

theorem word {f : Token → Walk β} (hlt : c.position < tokens.length)
    (h : ∀ t d, c.position < d.position → Completes size r F (f t) tokens d) :
    Completes size r F (Walk.advance >>= f) tokens c := by
  refine bind_plain .advance ?_
  rintro t d ⟨⟩
  refine h _ _ ?_
  rw [Cursor.advance_of_lt hlt]
  exact Nat.lt_succ_self _

theorem current {f : Token → Walk β} (h : Completes size r F (f (shown tokens c.position)) tokens c) :
    Completes size r F (Walk.current >>= f) tokens c := by
  refine bind_plain (.current .pure) ?_
  rintro a d ⟨⟩
  exact h

theorem procedures {f : List String → Walk β} (h : Completes size r F (f c.procedures) tokens c) :
    Completes size r F (Walk.procedures >>= f) tokens c := h

theorem setProcedures {names : List String} {f : Unit → Walk β}
    (h : Completes size r F (f ()) tokens { c with procedures := names }) :
    Completes size r F (Walk.setProcedures names >>= f) tokens c := h

theorem recordCall {name : String} {a : β} : Completes size r F (Walk.recordCall name >>= fun _ => Pure.pure a) tokens c :=
  fun _ _ h => by cases h

theorem ite {p : Prop} [Decidable p] {w' : Walk α} (h : p → Completes size r F w tokens c)
    (h' : ¬ p → Completes size r F w' tokens c) : Completes size r F (if p then w else w') tokens c := by
  split
  · exact h ‹_›
  · exact h' ‹_›

theorem many {more : Token → Bool} {item : Walk α} {p : Nat}
    (hreg : ∀ d, more (shown tokens d.position) = true → RegularAt False item tokens d)
    (hpass : ∀ d a e, p ≤ d.position → more (shown tokens d.position) = true → item tokens d = some (.ok a, e) →
      d.position < e.position)
    (hitem : ∀ d, p ≤ d.position → more (shown tokens d.position) = true → Completes size r F item tokens d)
    (hF : ∀ pre rest, F rest → more (shown (pre ++ rest) pre.length) = false) {n : Nat} (c : Cursor)
    (hp : p ≤ c.position) (hn : size < n + c.position) : Completes size r F (Walk.many more item n) tokens c := by
  induction n generalizing c with
  | zero => exact fun _ _ h => by cases h
  | succ n ih =>
    refine current (ite (fun hmore => ?_) fun _ => plain .pure)
    refine bind [] (hreg c hmore) (hitem c hp hmore) (fun a d ha => ?_) (fun a => ?_) fun _ h => h
    · have hlt := hpass c a d hp hmore ha
      refine bind [] (.many hreg n d) (ih d (by omega) (by omega)) (fun _ _ _ => plain .pure)
        (fun _ => .pure) fun _ h => h
    · intro pre rest d hrest hd hq hsize
      obtain ⟨m, rfl⟩ : ∃ m, n = m + 1 := ⟨n - 1, by simp at hsize; omega⟩
      have hend : Walk.many more item (m + 1) (pre ++ ([] ++ rest)) d = some (.ok [], d) :=
        many_end (by rw [hd]; exact hF pre rest hrest)
      exact ⟨_, d, bind_ok hend, hd⟩

/-- The word that closes a body, and the semicolon behind it. -/
def closing (word : String) : List Token := [⟨.keyword, word, 1⟩, ⟨.semicolon, ";", 1⟩]

theorem finishes_closing {q : Nat} {word : String} {a : α} : Finishes size q (closing word) F (do
    let _ ← Walk.keyword word
    Walk.skip .semicolon
    return a) :=
  .keyword fun _ => .semicolon fun _ => .pure

theorem closes_closing {word : String} (h : word ∉ Reader.statementWords) (rest : List Token) :
    Closes (closing word ++ rest) := by
  intro pre
  rw [closing, List.cons_append, Token.shown_append]
  simp [Reader.startsStatement, h]

theorem closes_semicolon (rest : List Token) : Closes (⟨.semicolon, ";", 1⟩ :: rest) := by
  intro pre
  rw [Token.shown_append]
  rfl

section Statements

variable {p : Nat} {stmt : Walk Stmt}
  (hreg : ∀ d, Reader.startsStatement (shown tokens d.position) = true → RegularAt False stmt tokens d)
  (hpass : ∀ d a e, p ≤ d.position → Reader.startsStatement (shown tokens d.position) = true → stmt tokens d = some (.ok a, e) → d.position < e.position)
  (hstmt : ∀ d, p ≤ d.position → Reader.startsStatement (shown tokens d.position) = true → Completes size (2 * p) Closes stmt tokens d)
  (hb : size < bound)

include hreg hpass hstmt hb

theorem stmts (c : Cursor) (hp : p ≤ c.position) : Completes size (2 * p) Closes (Walk.stmts bound stmt) tokens c :=
  many hreg hpass hstmt (fun pre _ h => h pre) c hp (by omega)

theorem body {word : String} {g : List Stmt → Stmt} (hword : word ∉ Reader.statementWords) (c : Cursor)
    (hp : p ≤ c.position) (hr : r + 2 ≤ 2 * p) : Completes size r Closes (do
      let body ← Walk.stmts bound stmt
      let _ ← Walk.keyword word
      Walk.skip .semicolon
      return g body) tokens c :=
  bind (closing word) (.stmts hreg c) ((stmts hreg hpass hstmt hb c hp).mono hr)
    (fun _ _ _ => plain (RegularAt.expectText.bind fun _ _ _ => RegularAt.skip.bind fun _ _ _ => .pure))
    (fun _ => finishes_closing) fun rest _ => closes_closing hword rest

/-- Behind the branches stands `endif`. -/
def EndsIf (rest : List Token) : Prop := ∃ us, rest = closing "endif" ++ us

omit hreg hpass hstmt hb in
theorem branches_end {n : Nat} {us pre : List Token} (hd : d.position = pre.length) :
    Walk.branches bound stmt (n + 1) (pre ++ (closing "endif" ++ us)) d = some (.ok ([], none), d) := by
  have hshown : shown (pre ++ (closing "endif" ++ us)) d.position = ⟨.keyword, "endif", 1⟩ := by
    rw [hd, closing, List.cons_append, Token.shown_append]
  change (if (shown (pre ++ (closing "endif" ++ us)) d.position).isKeyword "else" then _ else _ :
    Walk (List ElseIf × Option (List Stmt))) _ _ = _
  rw [hshown, if_neg (by decide)]
  rfl

theorem branches {n : Nat} (c : Cursor) (hp : p ≤ c.position) (hn : size < n + c.position) :
    Completes size (2 * p) EndsIf (Walk.branches bound stmt n) tokens c := by
  have hclose (rest : List Token) (h : EndsIf rest) : Closes ([] ++ rest) := by
    obtain ⟨us, rfl⟩ := h
    exact closes_closing (by decide) us
  induction n generalizing c with
  | zero => exact fun _ _ h => by cases h
  | succ n ih =>
    refine current (ite (fun hword => word ?_ fun _ d h1 => current (ite (fun hif => word ?_ fun _ e h2 => ?_) fun _ => ?_))
      fun _ => plain .pure)
    · exact Token.lt_of_shown (Token.kind_ne_eof_of_is hword (by decide))
    · exact Token.lt_of_shown (Token.kind_ne_eof_of_is hif (by decide))
    · refine head (.expr e) fun _ f h3 => head .expectText fun _ b h4 => ?_
      refine bind [] (.stmts hreg b) (stmts hreg hpass hstmt hb b (by omega)) (fun _ g h5 => ?_) (fun _ => ?_) hclose
      · have hle := ((RegularAt.stmts hreg b).keeps h5).position
        exact bind [] (.branches hreg n g) (ih g (by omega) (by omega)) (fun _ _ _ => plain .pure) (fun _ => .pure)
          fun _ h => h
      · rintro pre _ d ⟨us, rfl⟩ hd hq hsize
        obtain ⟨m, rfl⟩ : ∃ m, n = m + 1 := ⟨n - 1, by simp at hsize; omega⟩
        exact ⟨_, d, bind_ok (branches_end hd), hd⟩
    · refine bind [] (.stmts hreg d) (stmts hreg hpass hstmt hb d (by omega)) (fun _ _ _ => plain .pure)
        (fun _ => .pure) hclose

omit hpass hb in
theorem block (c : Cursor) (hp : p ≤ c.position) : Completes size (2 * p) Closes (Walk.block bound stmt) tokens c := by
  refine current (head (.decls c) fun ds d h1 => current (ite (fun hs => ?_) fun _ => ite (fun _ => plain .stop) fun _ => plain .pure))
  exact bind [] (hreg d hs) (hstmt d (by omega) hs) (fun _ _ _ => plain .pure) (fun _ => .pure) fun _ h => h

end Statements

section Statements

variable {stmt : Walk Stmt} (hlt : c.position < tokens.length)
  (hreg : ∀ d, Reader.startsStatement (shown tokens d.position) = true → RegularAt False stmt tokens d)
  (hpass : ∀ d a e, c.position < d.position → Reader.startsStatement (shown tokens d.position) = true → stmt tokens d = some (.ok a, e) → d.position < e.position)
  (hstmt : ∀ d, c.position < d.position → Reader.startsStatement (shown tokens d.position) = true → Completes size (2 * (c.position + 1)) Closes stmt tokens d)
  (hb : size < bound)

include hlt hreg hpass hstmt hb

theorem whileStmt : Completes size (2 * c.position) Closes (Walk.whileStmt bound stmt) tokens c :=
  word hlt fun _ d h1 => head (.expr d) fun _ _ h2 => head .expectText fun _ f h3 =>
    body hreg hpass hstmt hb (by decide) f (by omega) (by omega)

theorem forStmt : Completes size (2 * c.position) Closes (Walk.forStmt bound stmt) tokens c :=
  word hlt fun _ _ h1 => head .expect fun _ _ h2 => head .expect fun _ d h3 => head (.expr d) fun _ _ h4 =>
    head .expectText fun _ d h5 => head (.expr d) fun _ _ h6 => head .expectText fun _ f h7 =>
    body hreg hpass hstmt hb (by decide) f (by omega) (by omega)

theorem groupStmt : Completes size (2 * c.position) Closes (Walk.groupStmt bound stmt) tokens c :=
  word hlt fun _ d h1 => body hreg hpass hstmt hb (by decide) d h1 (by omega)

theorem ifStmt : Completes size (2 * c.position) Closes (Walk.ifStmt bound stmt) tokens c := by
  refine word hlt fun _ d h1 => head (.expr d) fun _ _ h2 => head .expectText fun _ f h3 => ?_
  refine bind (closing "endif") (.stmts hreg f) ((stmts hreg hpass hstmt hb f (by omega)).mono ?_) (fun _ b h4 => ?_)
    (fun _ => ?_) fun rest _ => closes_closing (by decide) rest
  · exact Nat.le_refl (2 * (c.position + 1))
  · have hle := ((RegularAt.stmts hreg f).keeps h4).position
    refine bind (closing "endif") (.branches hreg bound b)
      ((branches hreg hpass hstmt hb b (by omega) (by omega)).mono (Nat.le_refl (2 * (c.position + 1)))) (fun _ _ _ => ?_)
      (fun _ => finishes_closing) fun rest _ => ⟨rest, rfl⟩
    exact plain (RegularAt.expectText.bind fun _ _ _ => RegularAt.skip.bind fun _ _ _ => .pure)
  · intro pre rest d hrest hd hq hsize
    obtain ⟨m, rfl⟩ : ∃ m, bound = m + 1 := ⟨bound - 1, by omega⟩
    rw [bind_ok (branches_end hd)]
    exact finishes_closing pre rest d hrest hd hq hsize

omit hpass hb in
theorem procedureStmt : Completes size (2 * c.position) Closes (Walk.procedureStmt bound stmt) tokens c := by
  refine word hlt fun _ d h1 => head .expect fun name e h2 => procedures (setProcedures ?_)
  refine head .expect fun _ f h3 => procedures ?_
  change e.position ≤ f.position at h3
  refine bind [⟨.semicolon, ";", 1⟩] (.block hreg f) ((block hreg hstmt f (by omega)).mono ?_) (fun _ _ _ => ?_)
    (fun _ => ?_) fun rest _ => closes_semicolon rest
  · change 2 * c.position + 1 ≤ 2 * (c.position + 1)
    omega
  · exact setProcedures (plain (RegularAt.skip.bind fun _ _ _ => .pure))
  · intro pre rest d hrest hd
    exact Finishes.semicolon (fun _ => .pure) pre rest { d with procedures := f.procedures } hrest hd

end Statements

theorem assignOrCall : Completes size r F (Walk.assignOrCall bound) tokens c := by
  refine head .advance fun _ _ _ => current (ite (fun _ => plain ?_) fun _ => procedures (ite (fun _ => ?_) fun _ => plain .stop))
  · exact RegularAt.advance.bind fun _ d _ => (RegularAt.expr d).bind fun _ _ _ => RegularAt.expect.bind fun _ _ _ => .pure
  · exact head .expect fun _ _ _ => recordCall

theorem callStmt : Completes size r F Walk.callStmt tokens c :=
  head .advance fun _ _ _ => head .expect fun _ _ _ => head .expect fun _ _ _ => recordCall

theorem readStmt : Completes size r F (Walk.readStmt bound) tokens c := by
  refine head .advance fun _ _ _ => current (ite (fun _ => plain ?_) fun _ => plain ?_)
  · exact RegularAt.advance.bind fun _ d _ => (RegularAt.items (fun _ => .expect) d).bind fun _ _ _ =>
      RegularAt.expectText.bind fun _ _ _ => RegularAt.expect.bind fun _ _ _ => .pure
  · exact RegularAt.expect.bind fun _ _ _ => RegularAt.expect.bind fun _ _ _ => .pure

def lastValue : List Token := [⟨.number, "1", 1⟩, ⟨.parenthesis, ")", 1⟩, ⟨.semicolon, ";", 1⟩]

/-- Behind the comma another value is read, and then the list is at its end. -/
theorem listOrBare {line : Nat} (hopen : (shown tokens c.position).is .parenthesis "(" = true)
    (ht : tokens.length ≤ size) (hb : size < bound) :
    Completes size (2 * c.position) F (Walk.listOrBare bound line) tokens c := by
  intro e d h hlt
  obtain ⟨v, b, hv, hk, hcomma⟩ := listOrBare_early hopen h hlt
  have hlast : e.index < tokens.length := Token.lt_of_shown (by rw [hcomma]; decide)
  have hfirst : c.position + 1 < e.index := by
    have hc : c.position < tokens.length := Token.lt_of_shown (Token.kind_ne_eof_of_is hopen (by decide))
    rw [← hk, ← Cursor.advance_position hc]
    exact ((Reads.expr (Nat.lt_of_le_of_lt ht hb) (Nat.lt_succ_self _) (c.advance tokens)).of_ok
      (Cursor.Follows.advance (Nat.le_of_lt hc)).within hv).1
  refine ⟨by omega, hlast, lastValue, by simp [lastValue]; omega, fun rest _ hsize => ?_⟩
  have hsame : SameUpTo e.index tokens (tokens.take (e.index + 1) ++ (lastValue ++ rest)) := .take hlast _
  have hnext {i : Nat} {t : Token} (h : (lastValue ++ rest)[i]? = some t) :
      shown (tokens.take (e.index + 1) ++ (lastValue ++ rest)) (e.index + (i + 1)) = t := by
    have hlen : (tokens.take (e.index + 1)).length = e.index + 1 := by simp; omega
    have hat : shown _ ((tokens.take (e.index + 1)).length + i) = t := Token.shown_append_add h
    rwa [hlen, Nat.add_assoc, Nat.add_comm 1] at hat
  obtain ⟨n, rfl⟩ : ∃ n, bound = n + 2 := ⟨bound - 2, by simp [lastValue] at hsize; omega⟩
  generalize tokens.take (e.index + 1) ++ (lastValue ++ rest) = whole at hsame hnext ⊢
  have hv' : expr (n + 2) whole (c.advance whole) = some (.ok v, b) := by
    rw [Cursor.advance_congr (hsame.mono (by omega))]
    have hplain : RegularAt True (expr (n + 2)) tokens (c.advance tokens) := .expr _
    refine hplain.sees hv ?_
    rwa [reach, hk]
  obtain ⟨s, d', hrun, hd'⟩ := listOrBare_pair (i := 1) line (by rwa [hsame.shown_eq (by omega)]) hv'
    (by rwa [hk, hsame.shown_eq (Nat.le_refl _)]) (by rw [hk, hnext (i := 0) rfl]) (by rw [hk, hnext (i := 0) rfl]; rfl)
    (by rw [hk, hnext (i := 1) rfl]; rfl) (by rw [hk, hnext (i := 2) rfl])
  exact ⟨s, d', hrun, by rw [hd', hk]; rfl⟩

theorem writeStmt (hlt : c.position < tokens.length) (ht : tokens.length ≤ size) (hb : size < bound) :
    Completes size (2 * c.position) F (Walk.writeStmt bound) tokens c := by
  refine word hlt fun _ d hd => current (ite (fun hopen => ?_) fun _ => plain (.bareWrite d))
  exact (listOrBare hopen ht hb).mono (by omega)

theorem stmtWithin {n : Nat} (ht : tokens.length ≤ size) (hb : size < bound) (c : Cursor)
    (hs : Reader.startsStatement (shown tokens c.position) = true) (hn : size < n + c.position) :
    Completes size (2 * c.position) Closes (Walk.stmtWithin bound n) tokens c := by
  induction n generalizing c with
  | zero => exact fun _ _ h => by cases h
  | succ n ih =>
    have hlt : c.position < tokens.length := Token.lt_of_shown (Reader.kind_of_startsStatement hs)
    have hpass (d : Cursor) (a : Stmt) (e : Cursor) (hd : c.position < d.position)
        (hs : Reader.startsStatement (shown tokens d.position) = true)
        (h : Walk.stmtWithin bound n tokens d = some (.ok a, e)) : d.position < e.position :=
      ((Reads.stmtWithin (m := tokens.length + 1) (by omega) (Nat.lt_succ_self _) d hs (by omega) (by omega)).of_ok
        (Nat.le_of_lt (Token.lt_of_shown (Reader.kind_of_startsStatement hs))) h).1
    have hin (d : Cursor) (hd : c.position < d.position) (hs : Reader.startsStatement (shown tokens d.position) = true) :
        Completes size (2 * (c.position + 1)) Closes (Walk.stmtWithin bound n) tokens d :=
      (ih d hs (by omega)).mono (by omega)
    refine current (ite (fun _ => assignOrCall) fun _ => ?_)
    split
    · exact ifStmt hlt (.stmtWithin n) hpass hin hb
    · exact whileStmt hlt (.stmtWithin n) hpass hin hb
    · exact forStmt hlt (.stmtWithin n) hpass hin hb
    · exact readStmt
    · exact writeStmt hlt ht hb
    · exact callStmt
    · exact groupStmt hlt (.stmtWithin n) hpass hin hb
    · exact procedureStmt hlt (.stmtWithin n) hin
    · exact plain .stop

theorem blocks (ht : tokens.length ≤ size) (hb : size < bound) :
    Completes size 0 (· = []) (Walk.many (!Reader.endsBlocks ·) (Walk.block bound (Walk.stmt bound)) bound) tokens .start := by
  have hstmt (d : Cursor) (hs : Reader.startsStatement (shown tokens d.position) = true) :
      Completes size 0 Closes (Walk.stmt bound) tokens d :=
    (stmtWithin ht hb d hs (by omega)).mono (Nat.zero_le _)
  refine many (p := 0) (fun d _ => .block (.stmtWithin bound) d) (fun d b e _ hmore h => ?_) (fun d _ _ => ?_) ?_ .start
    (Nat.zero_le _) (by omega)
  · have hread := Reads.programBlock (Nat.lt_of_le_of_lt ht hb) (Nat.lt_succ_self _) d
    refine (hread.of_ok (Nat.le_of_lt (Token.lt_of_shown ?_)) h).1
    intro heof
    simp [Reader.endsBlocks, heof] at hmore
  · refine (block (p := 0) (.stmtWithin bound) (fun d _ => hstmt d) d (Nat.zero_le _)).restrict ?_
    rintro _ rfl pre
    simp [Reader.startsStatement, shown]
  · rintro pre _ rfl
    simp [Reader.endsBlocks, shown]

end Completes

theorem many_nil {more : Token → Bool} {item : Walk α} {n : Nat} (h : many more item n tokens c = some (.ok [], d)) :
    d = c := by
  cases n with
  | zero => cases h
  | succ n =>
    change (if more (shown tokens c.position) then _ else _ : Walk (List α)) tokens c = _ at h
    split at h
    · obtain ⟨x, b, -, h⟩ := ok_of_bind h
      obtain ⟨xs, e, -, h⟩ := ok_of_bind h
      cases h
    · cases h
      rfl

theorem program_of_blocks {bound : Nat} {bs : List Block}
    (hbs : many (!Reader.endsBlocks ·) (block bound (stmt bound)) bound tokens .start = some (.ok bs, d)) (hne : bs ≠ [])
    (heof : (shown tokens d.position).kind = .eof) : ∃ p d', program bound tokens .start = some (.ok p, d') := by
  refine ⟨⟨bs, (shown tokens 0).line⟩, d.advance tokens, (bind_ok hbs).trans ?_⟩
  rw [if_neg (by simpa using hne)]
  have hskip : skip .period tokens d = some (.ok (), d) := by
    change (if (shown tokens d.position).kind = .period then _ else _ : Walk Unit) tokens d = _
    rw [heof, if_neg (by decide)]
    rfl
  have hend : expect .eof .endOfInput tokens d = some (.ok (shown tokens d.position), d.advance tokens) := by
    change (if (shown tokens d.position).kind = .eof then _ else _ : Walk Token) tokens d = _
    rw [if_pos heof]
    rfl
  rw [bind_ok hskip, bind_ok hend]
  rfl

/-- Where a program stops early, its tokens up to the stop begin another one. -/
theorem program_completable {size bound : Nat} {e : Stop} (hsize : 3 * tokens.length ≤ size) (hb : size < bound)
    (h : program bound tokens .start = some (.error e, d)) (hlt : e.index < e.furthest) :
    e.index < tokens.length ∧ ∃ tail p d', (tokens.take (e.index + 1) ++ tail).length ≤ size ∧
      program bound (tokens.take (e.index + 1) ++ tail) .start = some (.ok p, d') := by
  change (many (!Reader.endsBlocks ·) (block bound (stmt bound)) bound >>= _) tokens .start = _ at h
  obtain ⟨bs, b, -, hrest⟩ | ⟨_, heq, he⟩ := of_bind h
  · -- behind the blocks nothing is read twice
    have hplain : RegularAt True (if bs.isEmpty then stop .block else do
        skip .period
        let _ ← expect .eof .endOfInput
        return ⟨bs, (shown tokens 0).line⟩ : Walk Program) tokens b :=
      .ite (fun _ => .stop) fun _ => RegularAt.skip.bind fun _ _ _ => RegularAt.expect.bind fun _ _ _ => .pure
    exact absurd trivial ((hplain.stops hrest).2.early hlt).1
  · cases heq
    obtain ⟨-, hk, tail, htail, hdone⟩ := Completes.blocks (by omega) hb e d he hlt
    have hlen : (tokens.take (e.index + 1) ++ tail).length = e.index + 1 + tail.length := by simp; omega
    obtain ⟨bs, b, hbs, hpos⟩ := hdone [] rfl (by rw [List.append_nil, hlen]; omega)
    rw [List.append_nil] at hbs
    have hne : bs ≠ [] := by
      rintro rfl
      rw [many_nil hbs] at hpos
      exact absurd hpos (by simp [Cursor.start]; omega)
    have heof : (shown (tokens.take (e.index + 1) ++ tail) b.position).kind = .eof := by
      rw [hpos, ← hlen, shown, List.getElem?_eq_none (Nat.le_refl _)]
      rfl
    obtain ⟨p, d', hp⟩ := program_of_blocks hbs hne heof
    exact ⟨hk, tail, p, d', by omega, hp⟩

end Walk

namespace Program

open Grammar

/-- The token at an index is a comma behind `write`, a parenthesis and one expression. -/
def FirstComma (tokens : List Token) (k : Nat) : Prop :=
  ∃ before word paren value comma rest v, tokens = before ++ word :: paren :: (value ++ comma :: rest) ∧
    word.isKeyword "write" = true ∧ paren.is .parenthesis "(" = true ∧ Expr.Derivation .expression value v ∧
    comma.kind = .comma ∧ k = before.length + 2 + value.length

theorem firstComma_of_cutsList {k : Nat} (h : Walk.CutsList tokens k) : FirstComma tokens k := by
  obtain ⟨j, bound, c, hword, hj, hopen, v, d, hv, rfl, hcomma⟩ := h
  have hc : c.position < tokens.length := Token.lt_of_shown (Token.kind_ne_eof_of_is hopen (by decide))
  have hd : d.position < tokens.length := Token.lt_of_shown (by rw [hcomma]; decide)
  -- with more room the walk is the one that the reader does
  have hroom := Walk.Refines.expr (Nat.le_max_left bound (tokens.length + 1)) _ _ _ hv
  obtain ⟨x, d', hx, hr, -⟩ := Walk.Reads.expr (Nat.lt_of_lt_of_le (Nat.lt_succ_self _) (Nat.le_max_right bound _))
    (Nat.lt_succ_self tokens.length) (c.advance tokens) (Cursor.Follows.advance (Nat.le_of_lt hc)).within
  cases hroom.symm.trans hx
  have hleft : ((c.advance tokens).input tokens).rest.length < tokens.length + 1 := by
    rw [Cursor.input, List.length_drop]
    omega
  obtain ⟨ts, hts, -, -, hvalue⟩ := Reader.Takes.expr rfl hleft v _ hr
  change tokens.drop (c.advance tokens).position = ts ++ tokens.drop d.position at hts
  have hlen := congrArg List.length hts
  rw [Cursor.advance_position hc] at hts hlen
  simp only [List.length_append, List.length_drop] at hlen
  refine ⟨tokens.take j, shown tokens j, shown tokens c.position, ts, shown tokens d.position,
    tokens.drop (d.position + 1), v, ?_, hword, hopen, hvalue, hcomma, ?_⟩
  · rw [← Token.drop_eq_shown hd, ← hts, ← Token.drop_eq_shown hc, hj, ← Token.drop_eq_shown (by omega), List.take_append_drop]
  · rw [List.length_take]
    omega

variable {bound bound' : Nat}

/-- The answer of a walk does not depend on its bound. -/
theorem walk_unique {r r' : Except Stop Program × Cursor} (h : Walk.program bound tokens .start = some r)
    (h' : Walk.program bound' tokens .start = some r') : r = r' := by
  have hmax := Walk.Refines.program (Nat.le_max_left bound bound') _ _ _ h
  rw [Walk.Refines.program (Nat.le_max_right bound bound') _ _ _ h'] at hmax
  exact (Option.some.inj hmax).symm

theorem ofTokens_of_walk {result : Except Stop Program} (h : Walk.program bound tokens .start = some (result, c)) :
    ofTokens tokens = result.mapError (·.error) := by
  obtain ⟨result', c', hw, hr, -⟩ := walks tokens (Nat.lt_succ_self _)
  cases walk_unique h hw
  exact hr.symm

/-- Whatever stands behind the furthest token of a failed reading, the error is the same. -/
theorem ofTokens_of_sameUpTo {tokens' : List Token} {stop : Stop}
    (h : Walk.program bound tokens .start = some (.error stop, c)) (hsame : SameUpTo stop.furthest tokens tokens') :
    ofTokens tokens' = .error stop.error :=
  ofTokens_of_walk ((Walk.RegularAt.program .start).sees h hsame)

/-- An error names the token at an index, and no program has the same tokens up to and including a further one; both
indices are the same, but for a stop at the first comma between the values that a `write` has in parentheses, and then
there is a program with the same tokens up to this comma. -/
theorem error_token_offends {e : ParseError} (h : ofTokens tokens = .error e) (hb : tokens.length < bound) :
    ∃ stop c, Walk.program bound tokens .start = some (.error stop, c) ∧ stop.error = e ∧
      shown tokens stop.index = e.found ∧ stop.index ≤ stop.furthest ∧
      (∀ tokens', SameUpTo stop.furthest tokens tokens' → ofTokens tokens' = .error e) ∧
      ((∃ tokens' p, SameUpTo stop.index tokens tokens' ∧ ofTokens tokens' = .ok p) ↔ stop.index < stop.furthest) ∧
      (stop.index < stop.furthest → FirstComma tokens stop.index) := by
  obtain ⟨result, c, hw, hr, -, hmeets⟩ := walks tokens hb
  rw [h] at hr
  cases result with
  | ok p => cases hr
  | error stop =>
    cases hr
    have hstops := ((Walk.RegularAt.program .start).stops hw).2
    refine ⟨stop, c, hw, rfl, hmeets, hstops.le, fun tokens' hsame => ofTokens_of_sameUpTo hw hsame, ⟨?_, fun hlt => ?_⟩,
      fun hlt => firstComma_of_cutsList (hstops.early hlt).2⟩
    · rintro ⟨tokens', p, hsame, hp⟩
      refine Nat.lt_of_le_of_ne hstops.le fun heq => ?_
      rw [heq] at hsame
      rw [ofTokens_of_sameUpTo hw hsame] at hp
      cases hp
    · have hroom : tokens.length < 3 * tokens.length + 1 := by omega
      obtain ⟨result', c', hw', -⟩ := walks tokens hroom
      cases walk_unique hw hw'
      obtain ⟨hk, tail, p, d, -, hp⟩ := Walk.program_completable (Nat.le_refl _) (Nat.lt_succ_self _) hw' hlt
      exact ⟨_, p, .take hk tail, ofTokens_of_walk hp⟩

/-- Values in parentheses that are not all of what is written, inside a loop: the error names the first comma. -/
theorem error_token_offends_list : ∃ (tokens : List Token) (e : ParseError) (stop : Stop) (c : Cursor),
    tokens = (Scan.ofSource "var x; while x < 2 do write (x, 1) + 2; endwhile").tokens ∧ ofTokens tokens = .error e ∧
    Walk.program 30 tokens .start = some (.error stop, c) ∧ stop.index = 11 ∧ stop.furthest = 14 ∧
    (∃ tokens' p, SameUpTo stop.index tokens tokens' ∧ ofTokens tokens' = .ok p) ∧ FirstComma tokens stop.index ∧
    ∀ tokens', SameUpTo stop.furthest tokens tokens' → ofTokens tokens' = .error e := by
  have herror : ofTokens (Scan.ofSource "var x; while x < 2 do write (x, 1) + 2; endwhile").tokens =
      .error (.unexpected (.mark ")") ⟨.comma, ",", 1⟩) := by rfl
  have hroom : (Scan.ofSource "var x; while x < 2 do write (x, 1) + 2; endwhile").tokens.length < 30 := by decide +kernel
  obtain ⟨stop, c, hw, -, -, -, hsame, hiff, hcomma⟩ := error_token_offends herror hroom
  obtain ⟨stop', c', hw', hindex, hfurthest⟩ : ∃ stop' c', Walk.program 30
      (Scan.ofSource "var x; while x < 2 do write (x, 1) + 2; endwhile").tokens .start = some (.error stop', c') ∧
      stop'.index = 11 ∧ stop'.furthest = 14 := ⟨_, _, by rfl, by rfl, by rfl⟩
  cases walk_unique hw hw'
  have hlt : stop.index < stop.furthest := by omega
  exact ⟨_, _, stop, c, rfl, herror, hw, hindex, hfurthest, hiff.mpr hlt, hcomma hlt, hsame⟩

/-- No program goes on from `write (1,` with a closing parenthesis, but the error names the comma: up to it the tokens
are those of a program. -/
theorem error_token_before_offending : ∃ (tokens tokens' : List Token) (stop : Stop) (c : Cursor) (p : Program),
    tokens = (Scan.ofSource "write (1,\n);").tokens ∧ tokens' = (Scan.ofSource "write (1, 2);").tokens ∧
    ofTokens tokens = .error (.unexpected (.mark ")") ⟨.comma, ",", 1⟩) ∧
    Walk.program 8 tokens .start = some (.error stop, c) ∧ stop.index = 3 ∧ stop.furthest = 4 ∧
    SameUpTo 3 tokens tokens' ∧ ofTokens tokens' = .ok p := by
  refine ⟨_, _, _, _, _, rfl, rfl, by rfl, by rfl, rfl, rfl, ?_, by rfl⟩
  unfold SameUpTo
  decide +kernel

end Program

end PLZero
