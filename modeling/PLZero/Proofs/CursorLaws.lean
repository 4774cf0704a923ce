import PLZero.Proofs.Cursor
import PLZero.Proofs.Derived

/-! What a walk can do, whatever its bounds. It goes forward, calls are only added, and it depends on no token behind
the last one that it has looked at. That is the token of the error, but for one case: the comma of a list that is
written in parentheses. -/

namespace PLZero

open Token (shown)

variable {α β : Type} {tokens tokens' : List Token} {c d : Cursor}

/-- The same tokens up to an index. -/
def SameUpTo (k : Nat) (tokens tokens' : List Token) : Prop := ∀ i ≤ k, tokens'[i]? = tokens[i]?

namespace SameUpTo

variable {i k : Nat}

theorem mono (h : SameUpTo k tokens tokens') (hi : i ≤ k) : SameUpTo i tokens tokens' :=
  fun j hj => h j (Nat.le_trans hj hi)

theorem lt_length (h : SameUpTo k tokens tokens') (hi : i ≤ k) : i < tokens'.length ↔ i < tokens.length := by
  rw [← Nat.not_le, ← Nat.not_le, ← List.getElem?_eq_none_iff, ← List.getElem?_eq_none_iff, h i hi]

/-- Where one list has ended, so has the other, and they are the same. -/
theorem eq_of_length_le (h : SameUpTo k tokens tokens') (hk : tokens.length ≤ k) : tokens' = tokens := by
  apply List.ext_getElem?
  intro j
  by_cases hj : j ≤ k
  · exact h j hj
  · have hlen : ¬ k < tokens'.length := by rw [h.lt_length (Nat.le_refl k)]; omega
    rw [List.getElem?_eq_none (by omega), List.getElem?_eq_none (by omega)]

theorem shown_eq (h : SameUpTo k tokens tokens') (hi : i ≤ k) : shown tokens' i = shown tokens i := by
  by_cases hlen : i < tokens.length
  · rw [shown, shown, h i hi, List.getElem?_eq_getElem hlen]
    rfl
  · rw [(h.mono hi).eq_of_length_le (by omega)]

end SameUpTo

theorem Reader.keyword_of_startsStatement {t : Token} (h : startsStatement t = true) (hk : t.kind ≠ .identifier) :
    t.kind = .keyword := by
  simp only [startsStatement, Bool.or_eq_true, Bool.and_eq_true, beq_iff_eq] at h
  exact (h.resolve_left hk).1

theorem Token.lt_of_shown {i : Nat} (h : (shown tokens i).kind ≠ .eof) : i < tokens.length := by
  refine Nat.lt_of_not_le fun hi => h ?_
  rw [shown, List.getElem?_eq_none hi]
  rfl

namespace Cursor

theorem advance_of_lt (h : c.position < tokens.length) : c.advance tokens = c.moveTo (c.position + 1) := if_pos h

@[simp] theorem advance_procedures : (c.advance tokens).procedures = c.procedures := by
  unfold advance
  split <;> rfl

@[simp] theorem advance_calls : (c.advance tokens).calls = c.calls := by
  unfold advance
  split <;> rfl

theorem le_advance : c.position ≤ (c.advance tokens).position := by
  unfold advance moveTo
  split <;> simp

theorem advance_congr (h : SameUpTo c.position tokens tokens') : c.advance tokens' = c.advance tokens := by
  simp only [advance, h.lt_length (Nat.le_refl _)]

theorem advance_position_congr {c' : Cursor} (h : c'.position = c.position) :
    (c'.advance tokens).position = (c.advance tokens).position := by
  unfold advance moveTo
  rw [h]
  split <;> simp [h]

/-- The position never goes back, and calls are only added; `plain` phrases touch neither names nor calls. -/
structure Keeps (plain : Prop) (c d : Cursor) : Prop where
  position : c.position ≤ d.position
  calls : c.calls <+: d.calls
  plain : plain → d.procedures = c.procedures ∧ d.calls = c.calls

namespace Keeps

variable {plain : Prop} {b : Cursor}

theorem refl : Keeps plain c c := ⟨Nat.le_refl _, List.prefix_refl _, fun _ => ⟨rfl, rfl⟩⟩

theorem trans (h : Keeps plain b c) (h' : Keeps plain c d) : Keeps plain b d where
  position := Nat.le_trans h.position h'.position
  calls := h.calls.trans h'.calls
  plain hp := ⟨(h'.plain hp).1.trans (h.plain hp).1, (h'.plain hp).2.trans (h.plain hp).2⟩

theorem advance : Keeps plain c (c.advance tokens) := ⟨le_advance, by simp, fun _ => by simp⟩

theorem moveTo (h : Keeps plain c d) {p : Nat} (hp : c.position ≤ p) : Keeps plain c (d.moveTo p) where
  position := hp
  calls := h.calls
  plain := h.plain

end Keeps

end Cursor

open Cursor (Keeps)

namespace Walk

section Bind

variable {w : Walk α} {f : α → Walk β} {x : Except Stop β} {a : α} {e : Stop} {b : Cursor}

theorem bind_ok (h : w tokens c = some (.ok a, b)) : (w >>= f) tokens c = f a tokens b := by
  change andThen w f tokens c = _
  rw [andThen, h]

theorem bind_error (h : w tokens c = some (.error e, b)) : (w >>= f) tokens c = some (.error e, b) := by
  change andThen w f tokens c = _
  rw [andThen, h]

theorem bind_none (h : w tokens c = none) : (w >>= f) tokens c = none := by
  change andThen w f tokens c = _
  rw [andThen, h]

theorem of_bind (h : (w >>= f) tokens c = some (x, d)) :
    (∃ a b, w tokens c = some (.ok a, b) ∧ f a tokens b = some (x, d)) ∨
      ∃ e, x = .error e ∧ w tokens c = some (.error e, d) := by
  cases hw : w tokens c with
  | none => rw [bind_none hw] at h; cases h
  | some y =>
    obtain ⟨y, b⟩ := y
    cases y with
    | ok a => exact .inl ⟨a, b, rfl, by rwa [bind_ok hw] at h⟩
    | error e =>
      rw [bind_error hw] at h
      cases h
      exact .inr ⟨e, rfl, rfl⟩

theorem ok_of_bind {y : β} (h : (w >>= f) tokens c = some (.ok y, d)) :
    ∃ a b, w tokens c = some (.ok a, b) ∧ f a tokens b = some (.ok y, d) := by
  obtain h | ⟨e, he, -⟩ := of_bind h
  · exact h
  · cases he

theorem bind_assoc {γ : Type} (w : Walk α) (f : α → Walk β) (g : β → Walk γ) :
    (w >>= f) >>= g = w >>= fun a => f a >>= g := by
  funext tokens c
  cases hw : w tokens c with
  | none => rw [bind_none hw, bind_none (bind_none hw)]
  | some y =>
    obtain ⟨y, b⟩ := y
    cases y with
    | ok a =>
      rw [bind_ok hw]
      change andThen (w >>= f) g tokens c = andThen (f a) g tokens b
      rw [andThen, bind_ok hw, andThen]
    | error e => rw [bind_error hw, bind_error (bind_error hw)]

end Bind

/-- The last token that a run may have looked at. -/
def reach : Except Stop α → Cursor → Nat
  | .ok _, d => d.position
  | .error e, _ => e.furthest

/-- Behind the parenthesis at `c` stand a value and, at index `k`, a comma. -/
def ValueAndComma (bound : Nat) (tokens : List Token) (c : Cursor) (k : Nat) : Prop :=
  ∃ v d, expr bound tokens (c.advance tokens) = some (.ok v, d) ∧ d.position = k ∧ (shown tokens k).kind = .comma

/-- The token at an index is the comma behind the first of the values that a `write` has in parentheses. -/
def CutsList (tokens : List Token) (k : Nat) : Prop :=
  ∃ j bound c, (shown tokens j).isKeyword "write" = true ∧ c.position = j + 1 ∧
    (shown tokens c.position).is .parenthesis "(" = true ∧ ValueAndComma bound tokens c k

structure Stops (plain : Prop) (tokens : List Token) (e : Stop) : Prop where
  le : e.index ≤ e.furthest
  early : e.index < e.furthest → ¬ plain ∧ CutsList tokens e.index

/-- What a walk does from `c` on does not depend on tokens that it has not reached; a `plain` phrase depends on
nothing but tokens and the position. -/
structure RegularAt (plain : Prop) (w : Walk α) (tokens : List Token) (c : Cursor) : Prop where
  keeps {x : Except Stop α} {d : Cursor} : w tokens c = some (x, d) → Keeps plain c d
  stops {e : Stop} {d : Cursor} : w tokens c = some (.error e, d) → c.position ≤ e.index ∧ Stops plain tokens e
  sees {x : Except Stop α} {d : Cursor} {tokens' : List Token} : w tokens c = some (x, d) →
    SameUpTo (reach x d) tokens tokens' → w tokens' c = some (x, d)
  restarts {x : Except Stop α} {c' d : Cursor} : plain → w tokens c = some (x, d) → c'.position = c.position →
    ∃ d', w tokens c' = some (x, d') ∧ d'.position = d.position

namespace RegularAt

variable {plain : Prop} {w : Walk α} {f : α → Walk β} {what : Expected} {kind : TokenKind}

theorem le_reach {x : Except Stop α} (h : RegularAt plain w tokens c) (hx : w tokens c = some (x, d)) :
    c.position ≤ reach x d := by
  cases x with
  | ok a => exact (h.keeps hx).position
  | error e => exact Nat.le_trans (h.stops hx).1 (h.stops hx).2.le

theorem bind (hw : RegularAt plain w tokens c)
    (hf : ∀ a d, w tokens c = some (.ok a, d) → RegularAt plain (f a) tokens d) :
    RegularAt plain (w >>= f) tokens c where
  keeps h := by
    obtain ⟨a, b, ha, hb⟩ | ⟨e, -, he⟩ := of_bind h
    · exact (hw.keeps ha).trans ((hf a b ha).keeps hb)
    · exact hw.keeps he
  stops h := by
    obtain ⟨a, b, ha, hb⟩ | ⟨e, heq, he⟩ := of_bind h
    · obtain ⟨hle, hs⟩ := (hf a b ha).stops hb
      exact ⟨Nat.le_trans (hw.keeps ha).position hle, hs⟩
    · cases heq
      exact hw.stops he
  sees h hsame := by
    obtain ⟨a, b, ha, hb⟩ | ⟨e, heq, he⟩ := of_bind h
    · rw [bind_ok (hw.sees ha (hsame.mono ((hf a b ha).le_reach hb)))]
      exact (hf a b ha).sees hb hsame
    · cases heq
      exact bind_error (hw.sees he hsame)
  restarts hp h hc := by
    obtain ⟨a, b, ha, hb⟩ | ⟨e, heq, he⟩ := of_bind h
    · obtain ⟨b', ha', hb'⟩ := hw.restarts hp ha hc
      rw [bind_ok ha']
      exact (hf a b ha).restarts hp hb hb'
    · cases heq
      obtain ⟨d', he', hd'⟩ := hw.restarts hp he hc
      exact ⟨d', bind_error he', hd'⟩

theorem pure {a : α} : RegularAt plain (Pure.pure a : Walk α) tokens c where
  keeps h := by cases h; exact .refl
  stops h := by cases h
  sees h _ := by cases h; rfl
  restarts _ h hc := by cases h; exact ⟨_, rfl, hc⟩

theorem spent : RegularAt plain (spent : Walk α) tokens c where
  keeps h := by cases h
  stops h := by cases h
  sees h := by cases h
  restarts _ h := by cases h

theorem ite {p : Prop} [Decidable p] {w' : Walk α} (h : p → RegularAt plain w tokens c)
    (h' : ¬ p → RegularAt plain w' tokens c) : RegularAt plain (if p then w else w') tokens c := by
  split
  · exact h ‹_›
  · exact h' ‹_›

theorem current {f : Token → Walk β} (h : RegularAt plain (f (shown tokens c.position)) tokens c) :
    RegularAt plain (Walk.current >>= f) tokens c where
  keeps := h.keeps
  stops := h.stops
  sees {x d tokens'} hx hsame := by
    change f (shown tokens' c.position) tokens' c = _
    rw [hsame.shown_eq (h.le_reach hx)]
    exact h.sees hx hsame
  restarts {x c' d} hp hx hc := by
    change ∃ d', f (shown tokens c'.position) tokens c' = _ ∧ _
    rw [hc]
    exact h.restarts hp hx hc

theorem procedures {f : List String → Walk β} (h : RegularAt False (f c.procedures) tokens c) :
    RegularAt False (Walk.procedures >>= f) tokens c := ⟨h.keeps, h.stops, h.sees, False.elim⟩

theorem setProcedures {names : List String} : RegularAt False (Walk.setProcedures names) tokens c where
  keeps h := by cases h; exact ⟨Nat.le_refl _, List.prefix_refl _, False.elim⟩
  stops h := by cases h
  sees h _ := by cases h; rfl
  restarts := False.elim

theorem recordCall {name : String} : RegularAt False (Walk.recordCall name) tokens c where
  keeps h := by cases h; exact ⟨Nat.le_refl _, List.prefix_append _ _, False.elim⟩
  stops h := by cases h
  sees h _ := by cases h; rfl
  restarts := False.elim

theorem advance : RegularAt plain Walk.advance tokens c where
  keeps h := by cases h; exact .advance
  stops h := by cases h
  sees {x d tokens'} h hsame := by
    cases h
    have hc : SameUpTo c.position tokens tokens' := hsame.mono Cursor.le_advance
    simp only [Walk.advance, hc.shown_eq (Nat.le_refl _), Cursor.advance_congr hc]
  restarts {x c' d} _ h hc := by
    cases h
    refine ⟨c'.advance tokens, ?_, Cursor.advance_position_congr hc⟩
    rw [Walk.advance, hc]

theorem stop : RegularAt plain (Walk.stop what : Walk α) tokens c where
  keeps h := by cases h; exact .refl
  stops h := by cases h; exact ⟨Nat.le_refl _, Nat.le_refl _, fun h => absurd h (Nat.lt_irrefl _)⟩
  sees {x d tokens'} h hsame := by
    cases h
    have hc : shown tokens' c.position = shown tokens c.position := hsame.shown_eq (Nat.le_refl _)
    rw [Walk.stop, hc]
    rfl
  restarts {x c' d} _ h hc := by
    cases h
    refine ⟨c', ?_, hc⟩
    rw [Walk.stop, hc]
    rfl

theorem expect : RegularAt plain (Walk.expect kind what) tokens c :=
  current (ite (fun _ => advance) fun _ => stop)

theorem expectText {text : String} :
    RegularAt plain (Walk.expectText kind text what) tokens c :=
  current (ite (fun _ => advance) fun _ => stop)

theorem skip : RegularAt plain (Walk.skip kind) tokens c :=
  current (ite (fun _ => advance.bind fun _ _ _ => pure) fun _ => pure)

end RegularAt

theorem expect_eq {kind : TokenKind} {what : Expected} : expect kind what tokens c =
    if (shown tokens c.position).kind = kind then advance tokens c else stop what tokens c := by
  change (if (shown tokens c.position).kind = kind then advance else stop what : Walk Token) tokens c = _
  split <;> rfl

theorem number_eq : number tokens c =
    if (shown tokens c.position).kind = .number then
      numberAt (shown tokens c.position) c.position tokens (c.advance tokens)
    else stop .number tokens c := by
  change (expect .number .number >>= fun t => numberAt t c.position) tokens c = _
  split
  · next hk => exact bind_ok (by rw [expect_eq, if_pos hk, advance])
  · next hk => exact bind_error (by rw [expect_eq, if_neg hk, stop, fail])

theorem numberAt_cases (t : Token) (i : Nat) :
    (∃ v, numberAt t i = Pure.pure v) ∨ numberAt t i = fail (.numberOutOfRange t) i := by
  unfold numberAt
  split
  · exact .inl ⟨_, rfl⟩
  · exact .inr rfl

/-- The number is taken before it is found to be out of range: then the position lies behind the index. -/
theorem RegularAt.number {plain : Prop} : RegularAt plain Walk.number tokens c := by
  have hstop : RegularAt plain (Walk.stop .number : Walk Int32) tokens c := .stop
  have hcases := numberAt_cases (shown tokens c.position) c.position
  constructor
  · intro x d h
    rw [number_eq] at h
    split at h
    · obtain ⟨v, hv⟩ | hv := hcases <;> rw [hv] at h <;> cases h <;> exact .advance
    · exact hstop.keeps h
  · intro e d h
    rw [number_eq] at h
    split at h
    · obtain ⟨v, hv⟩ | hv := hcases <;> rw [hv] at h <;> cases h
      exact ⟨Nat.le_refl _, Nat.le_refl _, fun h => absurd h (Nat.lt_irrefl _)⟩
    · exact hstop.stops h
  · intro x d tokens' h hsame
    rw [number_eq] at h ⊢
    split at h
    · next hk =>
      have hc : SameUpTo c.position tokens tokens' := by
        obtain ⟨v, hv⟩ | hv := hcases <;> rw [hv] at h <;> cases h
        · exact hsame.mono Cursor.le_advance
        · exact hsame
      rw [hc.shown_eq (Nat.le_refl _), if_pos hk, Cursor.advance_congr hc]
      obtain ⟨v, hv⟩ | hv := hcases <;> rw [hv] at h ⊢ <;> exact h
    · next hk =>
      rw [hsame.shown_eq (hstop.le_reach h), if_neg hk]
      exact hstop.sees h hsame
  · intro x c' d hp h hc
    rw [number_eq] at h ⊢
    rw [hc]
    split at h
    · next hk =>
      rw [if_pos hk]
      obtain ⟨v, hv⟩ | hv := hcases <;> rw [hv] at h ⊢ <;> cases h <;>
        exact ⟨c'.advance tokens, rfl, Cursor.advance_position_congr hc⟩
    · next hk =>
      rw [if_neg hk]
      exact hstop.restarts hp h hc

namespace RegularAt

variable {plain : Prop} {w : Walk α} {bound : Nat} {inner : Walk Expr}

theorem many {more : Token → Bool} {item : Walk α}
    (hi : ∀ c, more (shown tokens c.position) = true → RegularAt plain item tokens c) (n : Nat) (c : Cursor) :
    RegularAt plain (Walk.many more item n) tokens c := by
  induction n generalizing c with
  | zero => exact spent
  | succ n ih => exact current (ite (fun hm => (hi c hm).bind fun _ d _ => (ih d).bind fun _ _ _ => pure) fun _ => pure)

theorem items {item : Walk α} (hi : ∀ c, RegularAt plain item tokens c) (c : Cursor) :
    RegularAt plain (Walk.items bound item) tokens c :=
  (hi c).bind fun _ d _ => (many (fun _ _ => advance.bind fun _ d _ => hi d) bound d).bind fun _ _ _ => pure

theorem chain {level : Level} {operand : Walk Expr} (ho : ∀ c, RegularAt plain operand tokens c) (n : Nat)
    (left : Expr) (c : Cursor) : RegularAt plain (Walk.chain level operand n left) tokens c := by
  induction n generalizing left c with
  | zero => exact spent
  | succ n ih =>
    refine current ?_
    split
    · exact advance.bind fun _ d _ => (ho d).bind fun _ d _ => ih _ d
    · exact pure

theorem chained {level : Level} {operand : Walk Expr} (ho : ∀ c, RegularAt plain operand tokens c) (c : Cursor) :
    RegularAt plain (Walk.chained bound level operand) tokens c :=
  (ho c).bind fun left d _ => chain ho bound left d

theorem factor (hi : ∀ c, RegularAt plain inner tokens c) (c : Cursor) :
    RegularAt plain (Walk.factor inner) tokens c := by
  refine current ?_
  split
  · exact number.bind fun _ _ _ => pure
  · exact advance.bind fun _ _ _ => pure
  · exact ite (fun _ => advance.bind fun _ d _ => (hi d).bind fun _ _ _ => expectText.bind fun _ _ _ => pure) fun _ => stop
  · exact stop

theorem sum (hi : ∀ c, RegularAt plain inner tokens c) (c : Cursor) :
    RegularAt plain (Walk.sum bound inner) tokens c := chained (chained (factor hi)) c

theorem comparison (hi : ∀ c, RegularAt plain inner tokens c) (c : Cursor) :
    RegularAt plain (Walk.comparison bound inner) tokens c := by
  refine (sum hi c).bind fun _ d _ => current ?_
  split
  · exact advance.bind fun _ d _ => (sum hi d).bind fun _ _ _ => pure
  · exact pure

theorem exprWithin (n : Nat) (c : Cursor) : RegularAt plain (Walk.exprWithin bound n) tokens c := by
  induction n generalizing c with
  | zero => exact spent
  | succ n ih => exact comparison ih c

theorem expr (c : Cursor) : RegularAt plain (Walk.expr bound) tokens c := exprWithin bound c

theorem initial : RegularAt plain Walk.initial tokens c :=
  current (ite (fun _ => advance.bind fun _ _ _ => pure) fun _ => number.bind fun _ _ _ => pure)

theorem constItem : RegularAt plain Walk.constItem tokens c :=
  expect.bind fun _ _ _ => expectText.bind fun _ _ _ => initial.bind fun _ _ _ => pure

theorem varItem : RegularAt plain Walk.varItem tokens c :=
  expect.bind fun _ _ _ => current (ite (fun _ => advance.bind fun _ _ _ => initial.bind fun _ _ _ => pure) fun _ => pure)

theorem decls (c : Cursor) : RegularAt plain (Walk.decls bound) tokens c := by
  refine (many (fun c _ => ?_) bound c).bind fun _ _ _ => pure
  refine advance.bind fun _ _ _ => (items (fun c => ?_) _).bind fun _ _ _ => expect.bind fun _ _ _ => pure
  exact ite (fun _ => constItem) fun _ => varItem

theorem parenthesized (c : Cursor) : RegularAt plain (Walk.parenthesized bound) tokens c :=
  expectText.bind fun _ d _ => (items expr d).bind fun _ _ _ => expectText.bind fun _ _ _ => pure

theorem bareWrite {line : Nat} (c : Cursor) : RegularAt plain (Walk.bareWrite bound line) tokens c :=
  (items expr c).bind fun _ _ _ => expect.bind fun _ _ _ => pure

end RegularAt

/-- With more room a walk answers wherever it answered before, and in the same way. -/
def Refines (w w' : Walk α) : Prop := ∀ tokens c x, w tokens c = some x → w' tokens c = some x

namespace Refines

variable {w w' : Walk α} {f f' : α → Walk β} {bound bound' n n' : Nat}

theorem refl : Refines w w := fun _ _ _ h => h

theorem spent : Refines spent w := fun _ _ _ h => by cases h

theorem bind (hw : Refines w w') (hf : ∀ a, Refines (f a) (f' a)) : Refines (w >>= f) (w' >>= f') := by
  rintro tokens c ⟨x, d⟩ h
  obtain ⟨a, b, ha, hb⟩ | ⟨e, rfl, he⟩ := of_bind h
  · rw [bind_ok (hw _ _ _ ha)]
    exact hf a _ _ _ hb
  · exact bind_error (hw _ _ _ he)

theorem ite {p : Prop} [Decidable p] {v v' : Walk α} (h : p → Refines w w') (h' : ¬ p → Refines v v') :
    Refines (if p then w else v) (if p then w' else v') := by
  split
  · exact h ‹_›
  · exact h' ‹_›

theorem many {more : Token → Bool} {item item' : Walk α} (hi : Refines item item') (hn : n ≤ n') :
    Refines (many more item n) (many more item' n') := by
  induction n generalizing n' with
  | zero => exact spent
  | succ n ih =>
    obtain ⟨n', rfl⟩ : ∃ m, n' = m + 1 := ⟨n' - 1, by omega⟩
    refine refl.bind fun _ => ite (fun _ => ?_) fun _ => refl
    exact hi.bind fun _ => (ih (Nat.le_of_succ_le_succ hn)).bind fun _ => refl

theorem items {item item' : Walk α} (hi : Refines item item') (hb : bound ≤ bound') :
    Refines (items bound item) (items bound' item') :=
  hi.bind fun _ => (many (refl.bind fun _ => hi) hb).bind fun _ => refl

theorem chain {level : Level} {operand operand' : Walk Expr} (ho : Refines operand operand') (hn : n ≤ n')
    (left : Expr) : Refines (chain level operand n left) (chain level operand' n' left) := by
  induction n generalizing n' left with
  | zero => exact spent
  | succ n ih =>
    obtain ⟨n', rfl⟩ : ∃ m, n' = m + 1 := ⟨n' - 1, by omega⟩
    refine refl.bind fun t => ?_
    split
    · exact refl.bind fun _ => ho.bind fun _ => ih (Nat.le_of_succ_le_succ hn) _
    · exact refl

theorem chained {level : Level} {operand operand' : Walk Expr} (ho : Refines operand operand') (hb : bound ≤ bound') :
    Refines (chained bound level operand) (chained bound' level operand') :=
  ho.bind fun left => chain ho hb left

theorem factor {inner inner' : Walk Expr} (hi : Refines inner inner') : Refines (factor inner) (factor inner') := by
  refine refl.bind fun t => ?_
  split
  · exact refl
  · exact refl
  · exact ite (fun _ => refl.bind fun _ => hi.bind fun _ => refl) fun _ => refl
  · exact refl

theorem exprWithin (hb : bound ≤ bound') (hn : n ≤ n') : Refines (exprWithin bound n) (exprWithin bound' n') := by
  induction n generalizing n' with
  | zero => exact spent
  | succ n ih =>
    obtain ⟨n', rfl⟩ : ∃ m, n' = m + 1 := ⟨n' - 1, by omega⟩
    have hsum : Refines (sum bound (Walk.exprWithin bound n)) (sum bound' (Walk.exprWithin bound' n')) :=
      chained (chained (factor (ih (Nat.le_of_succ_le_succ hn))) hb) hb
    refine hsum.bind fun _ => refl.bind fun _ => ?_
    split
    · exact refl.bind fun _ => hsum.bind fun _ => refl
    · exact refl

theorem expr (hb : bound ≤ bound') : Refines (expr bound) (expr bound') := exprWithin hb hb

theorem decls (hb : bound ≤ bound') : Refines (decls bound) (decls bound') :=
  (many (refl.bind fun _ => (items refl hb).bind fun _ => refl) hb).bind fun _ => refl

theorem parenthesized (hb : bound ≤ bound') : Refines (parenthesized bound) (parenthesized bound') :=
  refl.bind fun _ => (items (expr hb) hb).bind fun _ => refl

theorem bareWrite {line : Nat} (hb : bound ≤ bound') : Refines (bareWrite bound line) (bareWrite bound' line) :=
  (items (expr hb) hb).bind fun _ => refl

theorem again {i : Nat} (hw : Refines w w') : Refines (again i w) (again i w') := by
  intro tokens c x h
  unfold Walk.again at h ⊢
  cases hrun : w tokens c with
  | none => rw [hrun] at h; cases h
  | some y =>
    rw [hrun] at h
    rwa [hw _ _ _ hrun]

theorem listOrBare {line : Nat} (hb : bound ≤ bound') : Refines (listOrBare bound line) (listOrBare bound' line) := by
  intro tokens c x h
  unfold Walk.listOrBare at h ⊢
  cases hrun : Walk.parenthesized bound tokens c with
  | none => rw [hrun] at h; cases h
  | some y =>
    rw [hrun] at h
    rw [parenthesized hb _ _ _ hrun]
    obtain ⟨_ | values, d⟩ := y
    · exact again (bareWrite hb) _ _ _ h
    · simp only at h ⊢
      split at h
      · rwa [if_pos ‹_›]
      · rw [if_neg ‹_›]
        exact again (bareWrite hb) _ _ _ h

section

variable {stmt stmt' : Walk Stmt} (hs : Refines stmt stmt') (hb : bound ≤ bound')

include hs hb

theorem branches (hn : n ≤ n') : Refines (branches bound stmt n) (branches bound' stmt' n') := by
  induction n generalizing n' with
  | zero => exact spent
  | succ n ih =>
    obtain ⟨n', rfl⟩ : ∃ m, n' = m + 1 := ⟨n' - 1, by omega⟩
    refine refl.bind fun _ => ite (fun _ => refl.bind fun _ => refl.bind fun _ => ite (fun _ => ?_) fun _ => ?_) fun _ => refl
    · exact refl.bind fun _ => (expr hb).bind fun _ => refl.bind fun _ => (many hs hb).bind fun _ =>
        (ih (Nat.le_of_succ_le_succ hn)).bind fun _ => refl
    · exact (many hs hb).bind fun _ => refl

theorem block : Refines (block bound stmt) (block bound' stmt') :=
  refl.bind fun _ => (decls hb).bind fun _ => refl.bind fun _ => ite (fun _ => hs.bind fun _ => refl) fun _ => refl

theorem stmtWith : Refines (stmtWith bound stmt) (stmtWith bound' stmt') := by
  refine refl.bind fun t => ite (fun _ => ?_) fun _ => ?_
  · exact refl.bind fun _ => refl.bind fun _ => ite (fun _ => refl.bind fun _ => (expr hb).bind fun _ => refl) fun _ => refl
  split
  · exact refl.bind fun _ => (expr hb).bind fun _ => refl.bind fun _ => (many hs hb).bind fun _ =>
      (branches hs hb hb).bind fun _ => refl
  · exact refl.bind fun _ => (expr hb).bind fun _ => refl.bind fun _ => (many hs hb).bind fun _ => refl
  · exact refl.bind fun _ => refl.bind fun _ => refl.bind fun _ => (expr hb).bind fun _ => refl.bind fun _ =>
      (expr hb).bind fun _ => refl.bind fun _ => (many hs hb).bind fun _ => refl
  · exact refl.bind fun _ => refl.bind fun _ => ite (fun _ => refl.bind fun _ => (items refl hb).bind fun _ => refl)
      fun _ => refl
  · exact refl.bind fun _ => refl.bind fun _ => ite (fun _ => listOrBare hb) fun _ => bareWrite hb
  · exact refl
  · exact refl.bind fun _ => (many hs hb).bind fun _ => refl
  · exact refl.bind fun _ => refl.bind fun _ => refl.bind fun _ => refl.bind fun _ => refl.bind fun _ => refl.bind fun _ =>
      (block hs hb).bind fun _ => refl
  · exact refl

end

theorem stmtWithin (hb : bound ≤ bound') (hn : n ≤ n') : Refines (stmtWithin bound n) (stmtWithin bound' n') := by
  induction n generalizing n' with
  | zero => exact spent
  | succ n ih =>
    obtain ⟨n', rfl⟩ : ∃ m, n' = m + 1 := ⟨n' - 1, by omega⟩
    exact stmtWith (ih (Nat.le_of_succ_le_succ hn)) hb

theorem program (hb : bound ≤ bound') : Refines (program bound) (program bound') :=
  refl.bind fun _ => (many (block (stmtWithin hb hb) hb) hb).bind fun _ => refl

end Refines

section Write

variable {bound line n : Nat} {x : Except Stop (List Expr)} {w : Walk α}

def BeginsWith (v : Walk α) (w : Walk β) : Prop :=
  ∃ rest : α → Walk β, w = v >>= rest ∧ ∀ a tokens c, RegularAt True (rest a) tokens c

theorem BeginsWith.first {v : Walk α} {f : α → Walk β} (hf : ∀ a tokens c, RegularAt True (f a) tokens c) :
    BeginsWith v (v >>= f) := ⟨f, rfl, hf⟩

theorem BeginsWith.bind {γ : Type} {v : Walk α} {w : Walk β} {f : β → Walk γ} (h : BeginsWith v w)
    (hf : ∀ b tokens c, RegularAt True (f b) tokens c) : BeginsWith v (w >>= f) := by
  obtain ⟨rest, rfl, hrest⟩ := h
  exact ⟨_, bind_assoc v rest f, fun a tokens c => (hrest a tokens c).bind fun b d _ => hf b tokens d⟩

theorem bareWrite_begins (n line : Nat) : BeginsWith (factor (exprWithin (n + 1) n)) (bareWrite (n + 1) line) := by
  have hf (tokens : List Token) (c : Cursor) : RegularAt True (factor (exprWithin (n + 1) n)) tokens c :=
    .factor (.exprWithin n) c
  have hproduct : BeginsWith (factor (exprWithin (n + 1) n)) (product (n + 1) (exprWithin (n + 1) n)) :=
    .first fun v tokens c => .chain (hf tokens) _ v c
  have hsum : BeginsWith (factor (exprWithin (n + 1) n)) (sum (n + 1) (exprWithin (n + 1) n)) :=
    hproduct.bind fun v tokens c => .chain (.chained (hf tokens)) _ v c
  have hexpr : BeginsWith (factor (exprWithin (n + 1) n)) (expr (n + 1)) := by
    refine hsum.bind fun v tokens c => .current ?_
    split
    · exact RegularAt.advance.bind fun _ d _ => (RegularAt.sum (.exprWithin n) d).bind fun _ _ _ => .pure
    · exact .pure
  have hitems : BeginsWith (factor (exprWithin (n + 1) n)) (items (n + 1) (expr (n + 1))) :=
    hexpr.bind fun v tokens c =>
      (RegularAt.many (fun _ _ => RegularAt.advance.bind fun _ d _ => .expr d) _ c).bind fun _ _ _ => .pure
  exact hitems.bind fun v tokens c => RegularAt.expect.bind fun _ _ _ => .pure

theorem expect_text_eq {kind : TokenKind} {text : String} {what : Expected} :
    expectText kind text what tokens c =
      if (shown tokens c.position).is kind text then advance tokens c else stop what tokens c := by
  change (if (shown tokens c.position).is kind text then advance else stop what : Walk Token) tokens c = _
  split <;> rfl

theorem factor_open (inner : Walk Expr) (h : (shown tokens c.position).is .parenthesis "(" = true) :
    factor inner tokens c = (inner >>= fun e => closeParen >>= fun _ => pure e) tokens (c.advance tokens) := by
  obtain ⟨hk, htext⟩ := Token.is_iff.mp h
  have hlook : (current : Walk Token) tokens c = some (.ok (shown tokens c.position), c) := rfl
  rw [factor, bind_ok hlook]
  simp only [hk, htext, if_true]
  exact bind_ok rfl

theorem parenthesized_open (h : (shown tokens c.position).is .parenthesis "(" = true) :
    parenthesized bound tokens c =
      (items bound (expr bound) >>= fun values => closeParen >>= fun _ => pure values) tokens (c.advance tokens) := by
  refine bind_ok (a := shown tokens c.position) ?_
  rw [expect_text_eq, if_pos h]
  rfl

theorem many_end {more : Token → Bool} {item : Walk α} (h : more (shown tokens c.position) = false) :
    many more item (n + 1) tokens c = some (.ok [], c) := by
  change (if more (shown tokens c.position) then _ else _ : Walk (List α)) tokens c = _
  rw [if_neg (by simp [h])]
  rfl

theorem parenthesized_single {v : Expr} {b : Cursor}
    (h : (shown tokens c.position).is .parenthesis "(" = true)
    (hv : expr (n + 1) tokens (c.advance tokens) = some (.ok v, b)) (hcomma : (shown tokens b.position).kind ≠ .comma) :
    parenthesized (n + 1) tokens c = (closeParen >>= fun _ => pure [v]) tokens b := by
  rw [parenthesized_open h]
  have hitems : items (n + 1) (expr (n + 1)) tokens (c.advance tokens) = some (.ok [v], b) := by
    refine (bind_ok hv).trans ((bind_ok (many_end ?_)).trans rfl)
    simpa using hcomma
  exact bind_ok hitems

theorem closeParen_eq : closeParen tokens c =
    if (shown tokens c.position).is .parenthesis ")" then some (.ok (shown tokens c.position), c.advance tokens)
    else some (.error ⟨.unexpected (.mark ")") (shown tokens c.position), c.position, c.position⟩, c) :=
  expect_text_eq

/-- An operand in parentheses is a list of one value. -/
theorem parenthesized_of_factor {v : Expr} {c' d' : Cursor}
    (hopen : (shown tokens c.position).is .parenthesis "(" = true)
    (hv : factor (exprWithin (n + 1) n) tokens c' = some (.ok v, d')) (hc : c'.position = c.position) :
    ∃ d, parenthesized (n + 1) tokens c = some (.ok [v], d) ∧ d.position = d'.position := by
  have hplace : (c.advance tokens).position = (c'.advance tokens).position := (Cursor.advance_position_congr hc).symm
  have hreg : RegularAt True (exprWithin (n + 1) n) tokens (c'.advance tokens) := .exprWithin n _
  have hroom : Refines (exprWithin (n + 1) n) (expr (n + 1)) := .exprWithin (Nat.le_refl _) (Nat.le_succ n)
  rw [factor_open (exprWithin (n + 1) n) (hc.symm ▸ hopen)] at hv
  obtain ⟨v, a', hv, hclose⟩ := ok_of_bind hv
  obtain ⟨t, b', hclose, hpure⟩ := ok_of_bind hclose
  cases hpure
  obtain ⟨a, ha, hpos⟩ := hreg.restarts trivial hv hplace
  rw [closeParen_eq, ← hpos] at hclose
  split at hclose
  · next hr =>
    cases hclose
    have hcomma : (shown tokens a.position).kind ≠ .comma := by rw [(Token.is_iff.mp hr).1]; decide
    refine ⟨a.advance tokens, ?_, Cursor.advance_position_congr hpos⟩
    rw [parenthesized_single hopen (hroom _ _ _ ha) hcomma, bind_ok (by rw [closeParen_eq, if_pos hr])]
    rfl
  · cases hclose

/-- After the attempt at a list in parentheses, bare values are read at least as far or end at its first comma. -/
theorem bareWrite_after {y : Except Stop Stmt} {c' d' : Cursor}
    (hopen : (shown tokens c.position).is .parenthesis "(" = true)
    (hx : parenthesized bound tokens c = some (x, d)) (hy : bareWrite bound line tokens c' = some (y, d'))
    (hc : c'.position = c.position) :
    reach x d ≤ reach y d' ∨ ∃ e, y = .error e ∧ ValueAndComma bound tokens c e.index := by
  cases bound with
  | zero =>
    have hnone : items 0 (expr 0) tokens (c.advance tokens) = none := bind_none rfl
    rw [parenthesized_open hopen, bind_none hnone] at hx
    cases hx
  | succ n =>
    obtain ⟨rest, heq, hrest⟩ := bareWrite_begins n line
    have hplace : (c.advance tokens).position = (c'.advance tokens).position := (Cursor.advance_position_congr hc).symm
    have hreg : RegularAt True (exprWithin (n + 1) n) tokens (c'.advance tokens) := .exprWithin n _
    have hroom : Refines (exprWithin (n + 1) n) (expr (n + 1)) := .exprWithin (Nat.le_refl _) (Nat.le_succ n)
    have hfactor := factor_open (exprWithin (n + 1) n) (hc.symm ▸ hopen)
    rw [heq] at hy
    -- what the operand in parentheses does decides what the list in parentheses does
    obtain ⟨v, b', hv, hy⟩ | ⟨e, rfl, he⟩ := of_bind hy
    · obtain ⟨a, ha, hpos⟩ := parenthesized_of_factor hopen hv hc
      rw [hx] at ha
      cases ha
      exact .inl (Nat.le_trans (Nat.le_of_eq hpos) ((hrest v tokens _).le_reach hy))
    · rw [hfactor] at he
      obtain ⟨v, a', hv, hclose⟩ | ⟨e, heq, he⟩ := of_bind he
      · obtain ⟨t, b', -, hpure⟩ | ⟨e, heq, hclose⟩ := of_bind hclose
        · cases hpure
        cases heq
        obtain ⟨a, ha, hpos⟩ := hreg.restarts trivial hv hplace
        rw [closeParen_eq, ← hpos] at hclose
        split at hclose
        · cases hclose
        next hr =>
        cases hclose
        have hv := hroom _ _ _ ha
        by_cases hcomma : (shown tokens a.position).kind = .comma
        · exact .inr ⟨_, rfl, v, a, hv, rfl, hcomma⟩
        · rw [parenthesized_single hopen hv hcomma, bind_error (by rw [closeParen_eq, if_neg hr])] at hx
          cases hx
          exact .inl (Nat.le_refl _)
      · cases heq
        obtain ⟨a, ha, -⟩ := hreg.restarts trivial he hplace
        have hitems : items (n + 1) (expr (n + 1)) tokens (c.advance tokens) = some (.error e, a) :=
          bind_error (hroom _ _ _ ha)
        rw [parenthesized_open hopen, bind_error hitems] at hx
        cases hx
        exact .inl (Nat.le_refl _)

theorem of_again {i : Nat} {y : Except Stop α} (h : again i w tokens c = some (y, d)) :
    (∃ a, y = .ok a ∧ w tokens c = some (.ok a, d)) ∨
      ∃ e, y = .error { e with furthest := max e.furthest i } ∧ w tokens c = some (.error e, d) := by
  unfold again at h
  split at h
  · next e b hw =>
    cases h
    exact .inr ⟨e, rfl, hw⟩
  · next a b hw =>
    cases h
    exact .inl ⟨a, rfl, hw⟩
  · cases h

theorem again_congr {i : Nat} (h : w tokens' c = w tokens c) :
    again i w tokens' c = again i w tokens c := by
  unfold again
  rw [h]

theorem RegularAt.furthest_eq {e : Stop} (h : RegularAt True w tokens c)
    (he : w tokens c = some (.error e, d)) : e.furthest = e.index := by
  have hs := (h.stops he).2
  have hle := hs.le
  have hlt : ¬ e.index < e.furthest := fun hlt => (hs.early hlt).1 trivial
  omega

theorem listOrBare_of_run (line : Nat) (h : parenthesized bound tokens c = some (x, d)) :
    (∃ values, x = .ok values ∧ (shown tokens d.position).kind = .semicolon ∧
      listOrBare bound line tokens c = some (.ok (.write values line), d.advance tokens)) ∨
    (∀ values, x = .ok values → (shown tokens d.position).kind ≠ .semicolon) ∧
      listOrBare bound line tokens c = again (reach x d) (bareWrite bound line) tokens (d.moveTo c.position) := by
  unfold listOrBare
  rw [h]
  cases x with
  | ok values =>
    by_cases hk : (shown tokens d.position).kind = .semicolon
    · exact .inl ⟨values, rfl, hk, if_pos hk⟩
    · exact .inr ⟨fun _ _ => hk, if_neg hk⟩
  | error e =>
    have hreach : e.furthest = e.index := (RegularAt.parenthesized c).furthest_eq h
    refine .inr ⟨nofun, ?_⟩
    change again e.index _ _ _ = again e.furthest _ _ _
    rw [hreach]

theorem listOrBare_eq_none (line : Nat) (h : parenthesized bound tokens c = none) : listOrBare bound line tokens c = none := by
  unfold listOrBare
  rw [h]

/-- The second reading is the same where all tokens that the first one has looked at are the same. -/
theorem listOrBare_congr (h : parenthesized bound tokens c = some (x, d))
    (hsame : SameUpTo (reach x d) tokens tokens') (hk : ∀ values, x = .ok values → (shown tokens d.position).kind ≠ .semicolon) :
    listOrBare bound line tokens' c = again (reach x d) (bareWrite bound line) tokens' (d.moveTo c.position) := by
  have hp : RegularAt True (parenthesized bound) tokens c := .parenthesized c
  obtain ⟨values, rfl, hsemi, -⟩ | ⟨-, hrun⟩ := listOrBare_of_run line (hp.sees h hsame)
  · rw [hsame.shown_eq (i := d.position) (Nat.le_refl _)] at hsemi
    exact absurd hsemi (hk values rfl)
  · exact hrun

/-- Where less is reported than was seen, the second reading has stopped at the first comma. -/
theorem listOrBare_early {e : Stop} (hopen : (shown tokens c.position).is .parenthesis "(" = true)
    (h : listOrBare bound line tokens c = some (.error e, d)) (hlt : e.index < e.furthest) :
    ValueAndComma bound tokens c e.index := by
  cases hx : parenthesized bound tokens c with
  | none => simp [listOrBare_eq_none line hx] at h
  | some r =>
    obtain ⟨x, b⟩ := r
    obtain ⟨values, rfl, hk, hrun⟩ | ⟨hk, hrun⟩ := listOrBare_of_run line hx <;> rw [hrun] at h
    · cases h
    · have hbare : RegularAt True (bareWrite bound line) tokens (b.moveTo c.position) := .bareWrite _
      obtain ⟨a, ⟨⟩, -⟩ | ⟨e, he, hy⟩ := of_again h
      cases he
      obtain hle | ⟨_, ⟨⟩, hcut⟩ := bareWrite_after hopen hx hy rfl
      · have heq : e.furthest = e.index := hbare.furthest_eq hy
        change e.index < max e.furthest (reach x b) at hlt
        change reach x b ≤ e.furthest at hle
        omega
      · exact hcut

theorem RegularAt.listOrBare {j : Nat} (hword : (shown tokens j).isKeyword "write" = true) (hj : c.position = j + 1)
    (hopen : (shown tokens c.position).is .parenthesis "(" = true) :
    RegularAt False (Walk.listOrBare bound line) tokens c := by
  have hp : RegularAt True (Walk.parenthesized bound) tokens c := .parenthesized c
  cases hx : Walk.parenthesized bound tokens c with
  | none =>
    have hnone := listOrBare_eq_none line hx
    exact ⟨fun h => (by simp [hnone] at h), fun h => (by simp [hnone] at h), fun h => (by simp [hnone] at h), False.elim⟩
  | some r =>
    obtain ⟨x, b⟩ := r
    have hb := hp.keeps hx
    obtain ⟨values, rfl, hk, hrun⟩ | ⟨hk, hrun⟩ := listOrBare_of_run line hx
    · refine ⟨fun h => ?_, fun h => ?_, fun h hsame => ?_, False.elim⟩ <;> rw [hrun] at h <;> cases h
      · exact ⟨(hb.trans .advance).position, (hb.trans .advance).calls, False.elim⟩
      · have hsame : SameUpTo b.position tokens _ := hsame.mono Cursor.le_advance
        rw [Walk.listOrBare, hp.sees hx hsame]
        simp only [hsame.shown_eq (Nat.le_refl _), hk, if_true, Cursor.advance_congr hsame]
    · have hbare : RegularAt True (Walk.bareWrite bound line) tokens (b.moveTo c.position) := .bareWrite _
      have hmove : Keeps True c (b.moveTo c.position) := hb.moveTo (Nat.le_refl _)
      refine ⟨fun h => ?_, fun h => ?_, fun h hsame => ?_, False.elim⟩ <;> rw [hrun] at h
      · obtain ⟨y, hy⟩ : ∃ y, Walk.bareWrite bound line tokens (b.moveTo c.position) = some (y, _) := by
          obtain ⟨a, -, hy⟩ | ⟨e, -, hy⟩ := of_again h <;> exact ⟨_, hy⟩
        have hkeeps := hmove.trans (hbare.keeps hy)
        exact ⟨hkeeps.position, hkeeps.calls, False.elim⟩
      · obtain ⟨a, ⟨⟩, -⟩ | ⟨e, he, hy⟩ := of_again h
        cases he
        refine ⟨(hbare.stops hy).1, Nat.le_trans (hbare.stops hy).2.le (Nat.le_max_left _ _), fun hlt => ⟨id, ?_⟩⟩
        exact ⟨j, bound, c, hword, hj, hopen, listOrBare_early hopen (hrun.trans h) hlt⟩
      · obtain ⟨a, rfl, hy⟩ | ⟨e, rfl, hy⟩ := of_again h
        · have hle : reach x b ≤ _ := (bareWrite_after hopen hx hy rfl).resolve_right (by simp)
          rw [listOrBare_congr hx (hsame.mono hle) hk, again_congr ((hbare.sees hy hsame).trans hy.symm), h]
        · have hfirst := hsame.mono (Nat.le_max_right e.furthest (reach x b))
          have hsecond := hsame.mono (Nat.le_max_left e.furthest (reach x b))
          rw [listOrBare_congr hx hfirst hk, again_congr ((hbare.sees hy hsecond).trans hy.symm), h]

theorem RegularAt.writeStmt (hword : (shown tokens c.position).isKeyword "write" = true) :
    RegularAt False (Walk.writeStmt bound) tokens c := by
  refine RegularAt.advance.bind fun t d h => .current (.ite (fun hopen => ?_) fun _ => .bareWrite _)
  cases h
  have hlt : c.position < tokens.length := Token.lt_of_shown (Token.kind_ne_eof_of_is hword (by decide))
  exact .listOrBare hword (by rw [Cursor.advance_of_lt hlt]; rfl) hopen

end Write

namespace RegularAt

variable {bound : Nat}

section

variable {stmt : Walk Stmt}
  (hstmt : ∀ c, Reader.startsStatement (shown tokens c.position) = true → RegularAt False stmt tokens c)

include hstmt

theorem stmts (c : Cursor) : RegularAt False (Walk.stmts bound stmt) tokens c := many hstmt bound c

theorem branches (n : Nat) (c : Cursor) : RegularAt False (Walk.branches bound stmt n) tokens c := by
  induction n generalizing c with
  | zero => exact spent
  | succ n ih =>
    refine current (ite (fun _ => advance.bind fun _ _ _ => current (ite (fun _ => ?_) fun _ => ?_)) fun _ => pure)
    · exact advance.bind fun _ d _ => (expr d).bind fun _ _ _ => expectText.bind fun _ d _ =>
        (stmts hstmt d).bind fun _ d _ => (ih d).bind fun _ _ _ => pure
    · exact (stmts hstmt _).bind fun _ _ _ => pure

theorem ifStmt : RegularAt False (Walk.ifStmt bound stmt) tokens c :=
  advance.bind fun _ d _ => (expr d).bind fun _ _ _ => expectText.bind fun _ d _ => (stmts hstmt d).bind fun _ d _ =>
    (branches hstmt bound d).bind fun _ _ _ => expectText.bind fun _ _ _ => skip.bind fun _ _ _ => pure

theorem whileStmt : RegularAt False (Walk.whileStmt bound stmt) tokens c :=
  advance.bind fun _ d _ => (expr d).bind fun _ _ _ => expectText.bind fun _ d _ => (stmts hstmt d).bind fun _ _ _ =>
    expectText.bind fun _ _ _ => skip.bind fun _ _ _ => pure

theorem forStmt : RegularAt False (Walk.forStmt bound stmt) tokens c :=
  advance.bind fun _ _ _ => expect.bind fun _ _ _ => expect.bind fun _ d _ => (expr d).bind fun _ _ _ =>
    expectText.bind fun _ d _ => (expr d).bind fun _ _ _ => expectText.bind fun _ d _ =>
    (stmts hstmt d).bind fun _ _ _ => expectText.bind fun _ _ _ => skip.bind fun _ _ _ => pure

theorem groupStmt : RegularAt False (Walk.groupStmt bound stmt) tokens c :=
  advance.bind fun _ d _ => (stmts hstmt d).bind fun _ _ _ => expectText.bind fun _ _ _ => skip.bind fun _ _ _ => pure

theorem block (c : Cursor) : RegularAt False (Walk.block bound stmt) tokens c := by
  refine current ((decls c).bind fun _ d _ => current (ite (fun hs => ?_) fun _ => ?_))
  · exact (hstmt d hs).bind fun _ _ _ => pure
  · exact ite (fun _ => stop) fun _ => pure

theorem procedureStmt : RegularAt False (Walk.procedureStmt bound stmt) tokens c :=
  advance.bind fun _ _ _ => expect.bind fun _ _ _ => procedures (setProcedures.bind fun _ _ _ =>
    expect.bind fun _ _ _ => procedures ((block hstmt _).bind fun _ _ _ => setProcedures.bind fun _ _ _ =>
    skip.bind fun _ _ _ => pure))

end

theorem assignOrCall : RegularAt False (Walk.assignOrCall bound) tokens c := by
  refine advance.bind fun _ _ _ => current (ite (fun _ => ?_) fun _ => procedures (ite (fun _ => ?_) fun _ => stop))
  · exact advance.bind fun _ d _ => (expr d).bind fun _ _ _ => expect.bind fun _ _ _ => pure
  · exact expect.bind fun _ _ _ => recordCall.bind fun _ _ _ => pure

theorem callStmt : RegularAt False Walk.callStmt tokens c :=
  advance.bind fun _ _ _ => expect.bind fun _ _ _ => expect.bind fun _ _ _ => recordCall.bind fun _ _ _ => pure

theorem readStmt : RegularAt False (Walk.readStmt bound) tokens c := by
  refine advance.bind fun _ _ _ => current (ite (fun _ => ?_) fun _ => ?_)
  · exact advance.bind fun _ d _ => (items (fun _ => expect) d).bind fun _ _ _ => expectText.bind fun _ _ _ =>
      expect.bind fun _ _ _ => pure
  · exact expect.bind fun _ _ _ => expect.bind fun _ _ _ => pure

theorem stmtWithin (n : Nat) (c : Cursor) (hs : Reader.startsStatement (shown tokens c.position) = true) :
    RegularAt False (Walk.stmtWithin bound n) tokens c := by
  induction n generalizing c with
  | zero => exact spent
  | succ n ih =>
    refine current (ite (fun _ => assignOrCall) fun hk => ?_)
    have hkey := Reader.keyword_of_startsStatement hs hk
    split
    · exact ifStmt ih
    · exact whileStmt ih
    · exact forStmt ih
    · exact readStmt
    · next hw => exact writeStmt (Token.is_iff.mpr ⟨hkey, hw⟩)
    · exact callStmt
    · exact groupStmt ih
    · exact procedureStmt ih
    · exact stop

theorem program (c : Cursor) : RegularAt False (Walk.program bound) tokens c := by
  refine current ((many (fun d _ => block (stmtWithin bound) d) bound c).bind fun _ _ _ => ite (fun _ => stop) fun _ => ?_)
  exact skip.bind fun _ _ _ => expect.bind fun _ _ _ => pure

end RegularAt

end Walk

end PLZero
