import PLZero.Proofs.Accepting
import PLZero.Proofs.CursorLaws
import Mathlib.Data.List.Basic

/-! Walking and reading are the same: from every position a walk does what the reader does with the tokens that are
left, and its bounds are never used up. The positions of a walk go up by one each time, but for the one return to the
parenthesis behind a `write`. -/

namespace PLZero

open Token (shown)

mutual

/-- The names that a statement calls, each with the procedures that can be called by their bare names there. -/
def Stmt.calls (names : List String) : Stmt → List (String × List String)
  | .ifElse _ body elseIfs otherwise _ =>
    Stmt.callsAll names body ++ (ElseIf.callsAll (Stmt.registeredAll names body) elseIfs ++
      match otherwise with
      | some other => Stmt.callsAll (ElseIf.registeredAll (Stmt.registeredAll names body) elseIfs) other
      | none => [])
  | .whileDo _ body _ => Stmt.callsAll names body
  | .forTo _ _ _ body _ => Stmt.callsAll names body
  | .call name _ => [(name, names)]
  | .group body _ => Stmt.callsAll names body
  | .procedure name body _ => Block.calls (name :: names) body
  | .assign .. | .read .. | .write .. => []

def Stmt.callsAll (names : List String) : List Stmt → List (String × List String)
  | [] => []
  | s :: ss => s.calls names ++ Stmt.callsAll (s.registered names) ss

def ElseIf.callsAll (names : List String) : List ElseIf → List (String × List String)
  | [] => []
  | ⟨_, body, _⟩ :: others => Stmt.callsAll names body ++ ElseIf.callsAll (Stmt.registeredAll names body) others

def Block.calls (names : List String) : Block → List (String × List String)
  | ⟨_, some s, _⟩ => s.calls names
  | ⟨_, none, _⟩ => []

end

theorem Stmt.calls_ifElse (names : List String) (cond : Expr) (body : List Stmt) (elseIfs : List ElseIf)
    (otherwise : Option (List Stmt)) (line : Nat) :
    (Stmt.ifElse cond body elseIfs otherwise line).calls names =
      Stmt.callsAll names body ++ (ElseIf.callsAll (Stmt.registeredAll names body) elseIfs ++
        (otherwise.map (Stmt.callsAll (ElseIf.registeredAll (Stmt.registeredAll names body) elseIfs))).getD []) := by
  cases otherwise <;> rfl

def Block.callsAll (names : List String) : List Block → List (String × List String)
  | [] => []
  | b :: bs => b.calls names ++ callsAll (b.registered names) bs

def Program.calls (p : Program) : List (String × List String) := Block.callsAll [] p.blocks

variable {α β : Type} {tokens : List Token} {c d : Cursor}

namespace Cursor

/-- What a reader has before it at this position. -/
def input (tokens : List Token) (c : Cursor) : Input :=
  ⟨tokens.drop c.position, (tokens.getLast?.map (·.line)).getD 1, c.procedures⟩

theorem input_current : (c.input tokens).current = shown tokens c.position := by
  rw [input, Input.current, shown, ← List.head?_drop]
  cases tokens.drop c.position <;> rfl

theorem input_advance : (c.advance tokens).input tokens = (c.input tokens).advance := by
  unfold input Input.advance advance
  split
  · simp [moveTo]
  · next h => simp [List.drop_eq_nil_of_le (Nat.le_of_not_lt h)]

theorem input_next (h : (shown tokens c.position).kind ≠ .eof) :
    (c.input tokens).next = shown tokens (c.advance tokens).position := by
  rw [← input_current, input_advance, Input.current_advance]
  rwa [input_current]

/-- Back to the parenthesis behind a `write`. -/
def Returns (tokens : List Token) (old new : Nat) : Prop :=
  new ≤ old ∧ (shown tokens new).is .parenthesis "(" = true ∧
    ∃ j, new = j + 1 ∧ (shown tokens j).isKeyword "write" = true

theorem moveTo_procedures {p : Nat} : (c.moveTo p).procedures = c.procedures := rfl

theorem moveTo_calls {p : Nat} : (c.moveTo p).calls = c.calls := rfl

/-- No position lies behind the end, and each one is the next one up, or a return. -/
structure Tracked (tokens : List Token) (c : Cursor) : Prop where
  within : ∀ p ∈ c.position :: c.visited, p ≤ tokens.length
  steps : List.IsChain (fun new old => new = old + 1 ∨ Returns tokens old new) (c.position :: c.visited)

namespace Tracked

theorem moveTo {p : Nat} (h : c.Tracked tokens) (hp : p ≤ tokens.length)
    (hstep : p = c.position + 1 ∨ Returns tokens c.position p) : (c.moveTo p).Tracked tokens where
  within := List.forall_mem_cons.mpr ⟨hp, h.within⟩
  steps := List.isChain_cons_cons.mpr ⟨hstep, h.steps⟩

theorem advance (h : c.Tracked tokens) : (c.advance tokens).Tracked tokens := by
  unfold Cursor.advance
  split
  · exact h.moveTo ‹_› (.inl rfl)
  · exact h

theorem start : Cursor.start.Tracked tokens := ⟨by simp [Cursor.start], .singleton _⟩

end Tracked

/-- From `c` on nothing else has happened to the position. -/
structure Follows (tokens : List Token) (c d : Cursor) : Prop where
  within : d.position ≤ tokens.length
  tracked : c.Tracked tokens → d.Tracked tokens

namespace Follows

theorem refl (h : c.position ≤ tokens.length) : Follows tokens c c := ⟨h, id⟩

theorem trans {e : Cursor} (h : Follows tokens c d) (h' : Follows tokens d e) : Follows tokens c e :=
  ⟨h'.within, fun hc => h'.tracked (h.tracked hc)⟩

theorem advance (h : c.position ≤ tokens.length) : Follows tokens c (c.advance tokens) where
  within := by unfold Cursor.advance; split <;> assumption
  tracked := Tracked.advance

end Follows

/-- From `c` to `d` the names became `names`, and `new` was called. -/
structure Leads (c : Cursor) (names : List String) (new : List (String × List String)) (d : Cursor) : Prop where
  position : c.position ≤ d.position
  procedures : d.procedures = names
  calls : d.calls = c.calls ++ new

/-- At least one token further, with the same names and without a call. -/
def Passes (c d : Cursor) : Prop := c.position < d.position ∧ Leads c c.procedures [] d

namespace Leads

variable {names names' : List String} {new new' : List (String × List String)} {e : Cursor}

theorem refl : Leads c c.procedures [] c := ⟨Nat.le_refl _, rfl, by simp⟩

theorem trans (h : Leads c names new d) (h' : Leads d names' new' e) : Leads c names' (new ++ new') e :=
  ⟨Nat.le_trans h.position h'.position, h'.procedures, by rw [h'.calls, h.calls, List.append_assoc]⟩

theorem keep (h : Leads c names new d) (h' : Leads d d.procedures [] e) : Leads c names new e := by
  have hboth := h.trans h'
  rwa [h.procedures, List.append_nil] at hboth

theorem pass (h : Leads c names new d) (h' : Passes d e) : Leads c names new e := h.keep h'.2

end Leads

namespace Passes

variable {names : List String} {new : List (String × List String)} {e : Cursor}

theorem leads (h : Passes c d) (h' : Leads d names new e) : c.position < e.position ∧ Leads c names new e :=
  ⟨Nat.lt_of_lt_of_le h.1 h'.position, h.2.trans h'⟩

theorem trans (h : Passes c d) (h' : Passes d e) : Passes c e := ⟨Nat.lt_trans h.1 h'.1, h.2.pass h'⟩

theorem keep (h : Passes c d) (h' : Leads d d.procedures [] e) : Passes c e := by
  have hboth := h.leads h'
  rwa [h.2.procedures] at hboth

theorem advance (h : c.position < tokens.length) : Passes c (c.advance tokens) := by
  rw [advance_of_lt h]
  exact ⟨Nat.lt_succ_self _, Nat.le_succ _, rfl, by simp [moveTo]⟩

end Passes

end Cursor

open Cursor (Leads Passes)

namespace Reader

variable {more : Input → Bool} {item : Reader α} {s : Input} {r : Reader α} {bound : Nat}

theorem bind_of_error {f : α → Reader β} {e : ParseError} (h : r s = .error e) :
    (r >>= f) s = .error e := by
  simp only [Bind.bind, StateT.bind]
  rw [h]
  rfl

theorem discard_bind {g : PUnit → Reader β} : (discard r >>= g) = r >>= fun _ => g ⟨⟩ := by
  funext s
  simp only [Bind.bind, StateT.bind, Functor.discard, Functor.mapConst, StateT.map, Function.comp]
  cases r s <;> rfl

theorem manyBehind_eq (n : Nat) (read : Array α) :
    manyBehind more item n read s = (manyBehind more item n #[] s).map fun p => (read ++ p.1, p.2) := by
  induction n generalizing read s with
  | zero =>
    change Except.ok (read, s) = Except.ok (read ++ #[], s)
    rw [Array.append_empty]
  | succ n ih =>
    rw [Run.manyBehind_succ, Run.manyBehind_succ]
    split
    · cases hitem : item s with
      | error e => simp only [bind_of_error hitem]; rfl
      | ok x =>
        rw [bind_of_ok hitem, bind_of_ok hitem, ih, @ih x.2 (#[].push x.1)]
        cases manyBehind more item n #[] x.2 with
        | error e => rfl
        | ok y => simp [Except.map]
    · simp [Except.map]

theorem many_succ (n : Nat) : many (n + 1) more item s =
    if more s then (item >>= fun x => many n more item >>= fun xs => pure (x :: xs)) s else .ok ([], s) := by
  have hmany (m : Nat) (s : Input) : many m more item s = (manyBehind more item m #[] s).map fun p => (p.1.toList, p.2) := by
    cases h : manyBehind more item m #[] s with
    | error e => exact bind_of_error h
    | ok x => exact bind_of_ok h
  rw [hmany, Run.manyBehind_succ]
  split
  · cases hitem : item s with
    | error e => rw [bind_of_error hitem, bind_of_error hitem]; rfl
    | ok x =>
      rw [bind_of_ok hitem, bind_of_ok hitem, manyBehind_eq]
      have hrest := hmany n x.2
      cases hread : manyBehind more item n #[] x.2 with
      | error e =>
        rw [hread] at hrest
        exact (bind_of_error hrest).symm
      | ok y =>
        rw [hread] at hrest
        rw [bind_of_ok hrest]
        simp [Except.map]
        rfl
  · rfl

theorem bind_congr_at {r' : Reader α} {k : α → Reader β} (h : r s = r' s) : (r >>= k) s = (r' >>= k) s := by
  simp only [Bind.bind, StateT.bind]
  rw [h]

theorem many_bind_of_more {k : List α → Reader β} {n : Nat} (h : more s = true) : (many (n + 1) more item >>= k) s =
    (item >>= fun x => many n more item >>= fun xs => k (x :: xs)) s := by
  have hone : many (n + 1) more item s = (item >>= fun x => many n more item >>= fun xs => pure (x :: xs)) s := by
    rw [many_succ, if_pos h]
  rw [bind_congr_at hone]
  simp only [LawfulMonad.bind_assoc, LawfulMonad.pure_bind]

theorem many_bind_of_end {k : List α → Reader β} {n : Nat} (h : more s = false) :
    (many (n + 1) more item >>= k) s = k [] s := by
  have hnone : many (n + 1) more item s = .ok ([], s) := by simp [many_succ, h]
  exact bind_of_ok hnone

theorem elseIf_bind {stmt : Reader Stmt} {k : ElseIf → Reader β} : elseIf bound stmt >>= k =
    (do
      let word ← advance
      discard advance
      let cond ← expr bound
      discard (keyword "then")
      let body ← stmts bound stmt
      k ⟨cond, body, word.line⟩) := by
  simp only [elseIf, LawfulMonad.bind_assoc, LawfulMonad.pure_bind]

theorem otherwise_bind {stmt : Reader Stmt} {k : Option (List Stmt) → Reader β} :
    (otherwise bound stmt >>= k) s =
      if s.current.isKeyword "else" then (do discard advance; let body ← stmts bound stmt; k (some body) : Reader β) s
      else k none s := by
  split
  · next h =>
    have hread : otherwise bound stmt s = (do discard advance; let body ← stmts bound stmt; return some body : Reader _) s := by
      change (if s.current.isKeyword "else" then _ else _ : Reader _) s = _
      rw [if_pos h]
    rw [bind_congr_at hread]
    simp only [LawfulMonad.bind_assoc, LawfulMonad.pure_bind]
  · next h =>
    have hread : otherwise bound stmt s = .ok (none, s) := by
      change (if s.current.isKeyword "else" then _ else _ : Reader _) s = _
      rw [if_neg h]
      rfl
    exact bind_of_ok hread

def bareWrite (bound line : Nat) : Reader Stmt := do
  let values ← items bound (expr bound)
  discard semicolon
  return .write values line

def listOrBare (bound line : Nat) : Reader Stmt := fun s =>
  match parenthesized bound s with
  | .ok (values, s') =>
    if s'.current.kind = .semicolon then .ok (.write values line, s'.advance) else bareWrite bound line s
  | .error _ => bareWrite bound line s

theorem writeStmt_eq : writeStmt bound = (do
    let word ← advance
    if (← current).is .parenthesis "(" then listOrBare bound word.line else bareWrite bound word.line) := by
  unfold writeStmt
  congr 1
  funext word s
  change _ = (if s.current.is .parenthesis "(" then listOrBare bound word.line else bareWrite bound word.line : Reader Stmt) s
  split <;> rfl

theorem kind_of_startsStatement {t : Token} (h : startsStatement t = true) : t.kind ≠ .eof := by
  obtain h | h := Bool.or_eq_true_iff.mp h
  · rw [eq_of_beq h]
    decide
  · rw [eq_of_beq (Bool.and_eq_true_iff.mp h).1]
    decide

end Reader

namespace Walk

def outcome (tokens : List Token) : Except Stop α → Cursor → Except ParseError (α × Input)
  | .ok a, d => .ok (a, d.input tokens)
  | .error e, _ => .error e.error

/-- The result satisfies `Q`; an error names the token at its index. -/
def Meets (tokens : List Token) (Q : α → Cursor → Prop) : Except Stop α → Cursor → Prop
  | .ok a, d => Q a d
  | .error e, _ => shown tokens e.index = e.error.found

/-- From `c` on the walk has an answer, and it is that of the reader. -/
def Reads (tokens : List Token) (w : Walk α) (r : Reader α) (c : Cursor) (Q : α → Cursor → Prop) : Prop :=
  c.position ≤ tokens.length → ∃ x d, w tokens c = some (x, d) ∧ r (c.input tokens) = outcome tokens x d ∧
    c.Follows tokens d ∧
    Meets tokens Q x d

namespace Reads

variable {w : Walk α} {r : Reader α} {f : α → Walk β} {g : α → Reader β} {Q : α → Cursor → Prop}
  {S : β → Cursor → Prop} {what : Expected} {kind : TokenKind}

theorem bind (hw : Reads tokens w r c Q) (hf : ∀ a d, Q a d → Reads tokens (f a) (g a) d S) :
    Reads tokens (w >>= f) (r >>= g) c S := by
  intro ht
  obtain ⟨x, d, hx, hr, hd, hq⟩ := hw ht
  cases x with
  | ok a =>
    obtain ⟨y, e, hy, hg, he, hs⟩ := hf a d hq hd.within
    exact ⟨y, e, (bind_ok hx).trans hy, (Reader.bind_of_ok hr).trans hg, hd.trans he, hs⟩
  | error e => exact ⟨.error e, d, bind_error hx, Reader.bind_of_error hr, hd, hq⟩

theorem discard {g : PUnit → Reader β} (hw : Reads tokens w r c Q)
    (hf : ∀ a d, Q a d → Reads tokens (f a) (g ⟨⟩) d S) :
    Reads tokens (w >>= f) (Functor.discard r >>= g) c S := by
  rw [Reader.discard_bind]
  exact hw.bind hf

theorem of_ok {a : α} (hw : Reads tokens w r c Q) (hc : c.position ≤ tokens.length) (h : w tokens c = some (.ok a, d)) :
    Q a d := by
  obtain ⟨x, d', hx, -, -, hq⟩ := hw hc
  obtain ⟨rfl, rfl⟩ : Except.ok a = x ∧ d = d' := by simpa [h] using hx
  exact hq

theorem mono {Q' : α → Cursor → Prop} (hw : Reads tokens w r c Q) (h : ∀ a d, Q a d → Q' a d) :
    Reads tokens w r c Q' := by
  intro ht
  obtain ⟨x, d, hx, hr, hd, hq⟩ := hw ht
  refine ⟨x, d, hx, hr, hd, ?_⟩
  cases x with
  | ok a => exact h a d hq
  | error e => exact hq

theorem pure {a : α} (h : Q a c) : Reads tokens (Pure.pure a) (Pure.pure a) c Q :=
  fun ht => ⟨.ok a, c, rfl, rfl, .refl ht, h⟩

theorem ite {p : Prop} [Decidable p] {w' : Walk α} {r' : Reader α} (h : p → Reads tokens w r c Q)
    (h' : ¬ p → Reads tokens w' r' c Q) : Reads tokens (if p then w else w') (if p then r else r') c Q := by
  split
  · exact h ‹_›
  · exact h' ‹_›

theorem stop : Reads tokens (Walk.stop what) (Reader.stop what) c Q := by
  intro ht
  refine ⟨_, c, rfl, ?_, .refl ht, rfl⟩
  rw [Reader.stop, Cursor.input_current]
  rfl

theorem current {f : Token → Walk β} {g : Token → Reader β}
    (h : Reads tokens (f (shown tokens c.position)) (g (shown tokens c.position)) c S) :
    Reads tokens (Walk.current >>= f) (Reader.current >>= g) c S := by
  intro ht
  obtain ⟨x, d, hx, hr, hd, hq⟩ := h ht
  have hlook : Reader.current (c.input tokens) = .ok (shown tokens c.position, c.input tokens) := by
    rw [Reader.current, Cursor.input_current]
  exact ⟨x, d, hx, (Reader.bind_of_ok hlook).trans hr, hd, hq⟩

theorem get {g : Input → Reader α} (h : Reads tokens w (g (c.input tokens)) c Q) :
    Reads tokens w (MonadState.get >>= g) c Q := h

theorem congr {r' : Reader α} (h : Reads tokens w r c Q) (heq : r (c.input tokens) = r' (c.input tokens)) :
    Reads tokens w r' c Q := by
  intro ht
  rw [← heq]
  exact h ht

theorem look {f : Token → Walk β} {r : Reader β} (h : Reads tokens (f (shown tokens c.position)) r c S) :
    Reads tokens (Walk.current >>= f) r c S := h

theorem procedures {f : List String → Walk β} {r : Reader β} (h : Reads tokens (f c.procedures) r c S) :
    Reads tokens (Walk.procedures >>= f) r c S := h

theorem setProcedures {names : List String} {f : Unit → Walk β} {g : PUnit → Reader β} {change : Input → Input}
    (hc : change (c.input tokens) = Cursor.input tokens { c with procedures := names })
    (h : Reads tokens (f ()) (g ⟨⟩) { c with procedures := names } S) :
    Reads tokens (Walk.setProcedures names >>= f) (modify change >>= g) c S := by
  intro ht
  obtain ⟨x, d, hx, hr, hd, hq⟩ := h ht
  refine ⟨x, d, hx, ?_, ⟨hd.within, fun hc => hd.tracked ⟨hc.within, hc.steps⟩⟩, hq⟩
  change g ⟨⟩ (change (c.input tokens)) = _
  rw [hc, hr]

theorem recordCall {name : String} {f : Unit → Walk β} {r : Reader β}
    (h : Reads tokens (f ()) r { c with calls := c.calls ++ [(name, c.procedures)] } S) :
    Reads tokens (Walk.recordCall name >>= f) r c S := by
  intro ht
  obtain ⟨x, d, hx, hr, hd, hq⟩ := h ht
  exact ⟨x, d, hx, hr, ⟨hd.within, fun hc => hd.tracked ⟨hc.within, hc.steps⟩⟩, hq⟩

theorem again {i : Nat} (h : Reads tokens w r c Q) : Reads tokens (Walk.again i w) r c Q := by
  intro ht
  obtain ⟨x, d, hx, hr, hd, hq⟩ := h ht
  unfold Walk.again
  rw [hx]
  cases x with
  | ok a => exact ⟨_, d, rfl, hr, hd, hq⟩
  | error e => exact ⟨_, d, rfl, hr, hd, hq⟩

theorem last {g : α → β} (hw : Reads tokens w r c Q) (h : ∀ a d, Q a d → S (g a) d) :
    Reads tokens (w >>= fun a => Pure.pure (g a)) (r >>= fun a => Pure.pure (g a)) c S :=
  hw.bind fun a d hq => pure (h a d hq)

/-- The token there may be an end token. -/
theorem advance_or_stay : Reads tokens Walk.advance Reader.advance c fun t d =>
    t = shown tokens c.position ∧ d = c.advance tokens := by
  intro ht
  refine ⟨.ok (shown tokens c.position), c.advance tokens, rfl, ?_, .advance ht, rfl, rfl⟩
  rw [Reader.advance, Cursor.input_current, outcome, Cursor.input_advance]

theorem advance (h : (shown tokens c.position).kind ≠ .eof) : Reads tokens Walk.advance Reader.advance c fun t d =>
    t = shown tokens c.position ∧ d = c.advance tokens ∧ Passes c d := by
  refine advance_or_stay.mono ?_
  rintro _ _ ⟨rfl, rfl⟩
  exact ⟨rfl, rfl, .advance (Token.lt_of_shown h)⟩

theorem expect_shown (hk : kind ≠ .eof) :
    Reads tokens (Walk.expect kind what) (Reader.expect kind what) c fun t d => t = shown tokens c.position ∧ Passes c d :=
  current (ite (fun h => (advance (h ▸ hk)).mono fun _ _ hq => ⟨hq.1, hq.2.2⟩) fun _ => stop)

theorem expect (hk : kind ≠ .eof) :
    Reads tokens (Walk.expect kind what) (Reader.expect kind what) c fun _ d => Passes c d :=
  (expect_shown hk).mono fun _ _ hq => hq.2

theorem expectText {text : String} (hk : kind ≠ .eof) :
    Reads tokens (Walk.expectText kind text what) (Reader.expectText kind text what) c fun _ d => Passes c d :=
  current (ite (fun h => (advance (Token.kind_ne_eof_of_is h hk)).mono fun _ _ hq => hq.2.2) fun _ => stop)

theorem keyword {word : String} : Reads tokens (Walk.keyword word) (Reader.keyword word) c fun _ d => Passes c d :=
  expectText (by decide)

theorem identifier : Reads tokens Walk.identifier Reader.identifier c fun _ d => Passes c d := expect (by decide)

theorem semicolon : Reads tokens Walk.semicolon Reader.semicolon c fun _ d => Passes c d := expect (by decide)

theorem closeParen : Reads tokens Walk.closeParen Reader.closeParen c fun _ d => Passes c d := expectText (by decide)

theorem word {t : String} (h : (shown tokens c.position).isKeyword t = true) :
    Reads tokens Walk.advance Reader.advance c fun t d => t = shown tokens c.position ∧ Passes c d :=
  (advance (Token.kind_ne_eof_of_is h (by decide))).mono fun _ _ hq => ⟨hq.1, hq.2.2⟩

theorem skip (hk : kind ≠ .eof) :
    Reads tokens (Walk.skip kind) (do if (← Reader.current).kind = kind then Functor.discard Reader.advance) c
      fun _ d => Leads c c.procedures [] d := by
  refine current (ite (fun h => ?_) fun _ => pure .refl)
  intro ht
  exact ⟨.ok (), c.advance tokens, rfl, by rw [outcome, Cursor.input_advance]; rfl, .advance ht,
    (Passes.advance (Token.lt_of_shown (h ▸ hk))).2⟩

theorem skipSemicolon : Reads tokens (Walk.skip .semicolon) Reader.skipSemicolon c fun _ d => Leads c c.procedures [] d :=
  skip (by decide)

theorem number : Reads tokens Walk.number Reader.number c fun _ d => Passes c d := by
  have hparts : Reads tokens (Walk.expect .number .number >>= fun t => Walk.numberAt t c.position) Reader.number c
      fun _ d => Passes c d := by
    refine (expect_shown (by decide)).bind ?_
    rintro _ d ⟨rfl, hd⟩
    unfold Walk.numberAt
    cases Text.readWord (shown tokens c.position).text.toList with
    | some v => exact pure hd
    | none => exact fun ht => ⟨_, d, rfl, rfl, .refl ht, rfl⟩
  exact hparts

section Many

variable {more : Token → Bool} {T : Cursor → List α → Cursor → Prop} {p : Nat} {U : Cursor → α → Cursor → Prop}

/-- Each item takes a token, so a bound on those that are left is not used up. -/
theorem many (hitem : ∀ d, p ≤ d.position → more (shown tokens d.position) = true → Reads tokens w r d (U d))
    (hpass : ∀ {b a d}, U b a d → b.position < d.position) (hnil : ∀ b, T b [] b)
    (hcons : ∀ {b a d as e}, U b a d → T d as e → T b (a :: as) e) {n m : Nat} (c : Cursor) (hp : p ≤ c.position)
    (hn : tokens.length < n + c.position) (hm : tokens.length < m + c.position) :
    Reads tokens (Walk.many more w n) (Reader.many m (more ·.current) r) c (T c) := by
  induction n generalizing c m with
  | zero => exact fun ht => absurd ht (by omega)
  | succ n ih =>
    intro ht
    obtain ⟨m, rfl⟩ : ∃ k, m = k + 1 := ⟨m - 1, by omega⟩
    -- both look at the current token, and one step of the reader is one step of the walk
    have hstep : Reads tokens (Walk.many more w (n + 1)) (do
        if more (← Reader.current) then r >>= fun x => Reader.many m (more ·.current) r >>= fun xs => Pure.pure (x :: xs)
        else Pure.pure []) c (T c) := by
      refine current (ite (fun h => ?_) fun _ => pure (hnil c))
      refine (hitem c hp h).bind fun a d hq => ?_
      have hlt := hpass hq
      exact last (ih d (by omega) (by omega) (by omega)) fun as e hr => hcons hq hr
    refine hstep.congr ?_ ht
    rw [Reader.many_succ]
    change (if more (c.input tokens).current then _ else _ : Reader (List α)) (c.input tokens) = _
    split <;> rfl

end Many

variable {bound limit : Nat}

theorem items {p : Nat} (hitem : ∀ d, p ≤ d.position → Reads tokens w r d fun _ e => Passes d e) (c : Cursor)
    (hp : p ≤ c.position) (hb : tokens.length < bound) (hl : tokens.length < limit) :
    Reads tokens (Walk.items bound w) (Reader.items limit r) c fun _ d => Passes c d := by
  refine (hitem c hp).bind fun a d hd => ?_
  have hp' : p ≤ d.position := Nat.le_trans hp (Nat.le_of_lt hd.1)
  refine last (many (p := p) (U := fun b _ d => Passes b d) (T := fun b _ d => Leads b b.procedures [] d) ?_ (·.1)
    (fun _ => .refl) ?_ d hp' (by omega) (by omega)) fun as e he => hd.keep he
  · intro b hb hcomma
    have hk : (shown tokens b.position).kind ≠ .eof := by simp_all
    refine (advance hk).discard fun t d hd => ?_
    exact (hitem d (Nat.le_trans hb (Nat.le_of_lt hd.2.2.1))).mono fun a e he => hd.2.2.trans he
  · intro b a d as e hd he
    exact (hd.keep he).2

theorem kind_of_operatorAt {level : Level} {t : Token} {op : BinOp} (h : Reader.operatorAt level t = some op) :
    t.kind ≠ .eof := by
  rw [(Reader.Takes.operatorAt_eq_some h).1]
  decide

section Operands

variable {level : Level} {operand inner : Walk Expr} {operand' inner' : Reader Expr} {p : Nat}

theorem chain (hop : ∀ d, p ≤ d.position → Reads tokens operand operand' d fun _ e => Passes d e) {n m : Nat}
    (left : Expr) (c : Cursor) (hp : p ≤ c.position) (hn : tokens.length < n + c.position)
    (hm : tokens.length < m + c.position) :
    Reads tokens (Walk.chain level operand n left) (Reader.chain level operand' m left) c
      fun _ d => Leads c c.procedures [] d := by
  induction n generalizing c m left with
  | zero => exact fun ht => absurd ht (by omega)
  | succ n ih =>
    intro ht
    obtain ⟨m, rfl⟩ : ∃ k, m = k + 1 := ⟨m - 1, by omega⟩
    refine (current ?_ : Reads tokens (Walk.chain level operand (n + 1) left) (Reader.chain level operand' (m + 1) left) c _) ht
    cases hat : Reader.operatorAt level (shown tokens c.position) with
    | some op =>
      refine (advance (kind_of_operatorAt hat)).discard fun t d hd => ?_
      have hd := hd.2.2
      have hlt := hd.1
      refine (hop d (by omega)).bind fun right e he => ?_
      have hlt' := he.1
      exact (ih _ e (by omega) (by omega) (by omega)).mono fun a f hf => (hd.trans (he.keep hf)).2
    | none => exact pure .refl

theorem chained (hop : ∀ d, p ≤ d.position → Reads tokens operand operand' d fun _ e => Passes d e) (c : Cursor)
    (hp : p ≤ c.position) (hb : tokens.length < bound) (hl : tokens.length < limit) :
    Reads tokens (Walk.chained bound level operand) (Reader.chained limit level operand') c fun _ d => Passes c d := by
  refine (hop c hp).bind fun left d hd => ?_
  have hp' : p ≤ d.position := Nat.le_trans hp (Nat.le_of_lt hd.1)
  exact (chain hop left d hp' (by omega) (by omega)).mono fun a e he => hd.keep he

theorem factor (hin : ∀ d, p < d.position → Reads tokens inner inner' d fun _ e => Passes d e) (c : Cursor)
    (hp : p ≤ c.position) :
    Reads tokens (Walk.factor inner) (Reader.factor inner') c fun _ d => Passes c d := by
  refine current ?_
  cases hk : (shown tokens c.position).kind with
  | number => exact last number fun _ _ hd => hd
  | identifier => exact (advance (by simp [hk])).discard fun t d hd => pure hd.2.2
  | parenthesis =>
    refine ite (fun hopen => ?_) fun _ => stop
    refine (advance (by simp [hk])).discard fun t d hd => ?_
    have hd := hd.2.2
    refine (hin d (Nat.lt_of_le_of_lt hp hd.1)).bind fun e b hb => closeParen.discard fun _ f hf => pure ?_
    exact hd.trans (hb.trans hf)
  | _ => exact stop

theorem sum (hin : ∀ d, p < d.position → Reads tokens inner inner' d fun _ e => Passes d e) (c : Cursor)
    (hp : p ≤ c.position) (hb : tokens.length < bound) (hl : tokens.length < limit) :
    Reads tokens (Walk.sum bound inner) (Reader.sum limit inner') c fun _ d => Passes c d :=
  chained (fun d hd => chained (factor hin) d hd hb hl) c hp hb hl

theorem comparison (hin : ∀ d, p < d.position → Reads tokens inner inner' d fun _ e => Passes d e) (c : Cursor)
    (hp : p ≤ c.position) (hb : tokens.length < bound) (hl : tokens.length < limit) :
    Reads tokens (Walk.comparison bound inner) (Reader.comparison limit inner') c fun _ d => Passes c d := by
  refine (sum hin c hp hb hl).bind fun left d hd => current ?_
  have hlt := hd.1
  cases hat : Reader.operatorAt .relational (shown tokens d.position) with
  | some op =>
    refine (advance (kind_of_operatorAt hat)).discard fun t e he => ?_
    have he := he.2.2
    exact last (sum hin e (by have := he.1; omega) hb hl) fun _ f hf => hd.trans (he.trans hf)
  | none => exact pure hd

end Operands

theorem exprWithin (hb : tokens.length < bound) (hl : tokens.length < limit) {n m : Nat} (c : Cursor)
    (hn : tokens.length < n + c.position) (hm : tokens.length < m + c.position) :
    Reads tokens (Walk.exprWithin bound n) (Reader.exprWithin limit m) c fun _ d => Passes c d := by
  induction n generalizing c m with
  | zero => exact fun ht => absurd ht (by omega)
  | succ n ih =>
    intro ht
    obtain ⟨m, rfl⟩ : ∃ k, m = k + 1 := ⟨m - 1, by omega⟩
    exact comparison (p := c.position) (fun d hd => ih d (by omega) (by omega)) c (Nat.le_refl _) hb hl ht

theorem expr (hb : tokens.length < bound) (hl : tokens.length < limit) (c : Cursor) :
    Reads tokens (Walk.expr bound) (Reader.expr limit) c fun _ d => Passes c d :=
  exprWithin hb hl c (by omega) (by omega)

theorem initial : Reads tokens Walk.initial Reader.initial c fun _ d => Passes c d :=
  current (ite (fun h => last (advance (by simp [h])) fun _ _ hd => hd.2.2) fun _ => last number fun _ _ hd => hd)

theorem constItem (c : Cursor) : Reads tokens Walk.constItem Reader.constItem c fun _ d => Passes c d :=
  identifier.bind fun name d hd => (expectText (by decide)).discard fun _ e he =>
    last initial fun _ f hf => hd.trans (he.trans hf)

theorem varItem (c : Cursor) : Reads tokens Walk.varItem Reader.varItem c fun _ d => Passes c d := by
  refine identifier.bind fun name d hd => current (ite (fun h => ?_) fun _ => pure hd)
  exact (advance (Token.kind_ne_eof_of_is h (by decide))).discard fun _ e he =>
    last initial fun _ f hf => hd.trans (he.2.2.trans hf)

theorem kind_of_startsDecls {t : Token} (h : Reader.startsDecls t = true) : t.kind ≠ .eof := by
  obtain h | h := Bool.or_eq_true_iff.mp h <;> exact Token.kind_ne_eof_of_is h (by decide)

section Declarations

variable (hb : tokens.length < bound) (hl : tokens.length < limit)

include hb hl

theorem declList (c : Cursor) (h : Reader.startsDecls (shown tokens c.position) = true) :
    Reads tokens (Walk.declList bound) (Reader.declList limit) c fun _ d => Passes c d := by
  refine (advance (kind_of_startsDecls h)).bind fun t d hd => ?_
  have hitem (b : Cursor) : Reads tokens (if t.isKeyword "const" then Walk.constItem else Walk.varItem)
      (if t.isKeyword "const" then Reader.constItem else Reader.varItem) b fun _ e => Passes b e :=
    ite (fun _ => constItem b) fun _ => varItem b
  exact (items (p := 0) (fun b _ => hitem b) d (Nat.zero_le _) hb hl).bind fun ds e he => semicolon.discard fun _ f hf =>
    pure (hd.2.2.trans (he.trans hf))

theorem decls (c : Cursor) : Reads tokens (Walk.decls bound) (Reader.decls limit) c fun ds d =>
    Leads c c.procedures [] d ∧ (ds ≠ [] → c.position < d.position) := by
  refine last (many (p := 0) (U := fun b _ d => Passes b d)
    (T := fun b dss d => Leads b b.procedures [] d ∧ (dss ≠ [] → b.position < d.position)) (fun d _ => declList hb hl d)
    (·.1) (fun _ => ⟨.refl, by simp⟩) (fun hd he => ⟨(hd.keep he.1).2, fun _ => (hd.keep he.1).1⟩) c (Nat.zero_le _) (by omega)
    (by omega)) fun dss d hd => ⟨hd.1, fun hne => hd.2 ?_⟩
  rintro rfl
  exact hne rfl

end Declarations

section Statements

variable {body : List Stmt} {line : Nat}

def StmtRead (c : Cursor) (a : Stmt) (d : Cursor) : Prop :=
  c.position < d.position ∧ Leads c (a.registered c.procedures) (a.calls c.procedures) d

def StmtsRead (c : Cursor) (as : List Stmt) (d : Cursor) : Prop :=
  Leads c (Stmt.registeredAll c.procedures as) (Stmt.callsAll c.procedures as) d

def BlockRead (c : Cursor) (b : Block) (d : Cursor) : Prop :=
  c.position < d.position ∧ Leads c (b.registered c.procedures) (b.calls c.procedures) d

def BranchesRead (c : Cursor) (others : List ElseIf × Option (List Stmt)) (d : Cursor) : Prop :=
  Leads c ((others.2.map (Stmt.registeredAll (ElseIf.registeredAll c.procedures others.1))).getD
      (ElseIf.registeredAll c.procedures others.1))
    (ElseIf.callsAll c.procedures others.1 ++
      (others.2.map (Stmt.callsAll (ElseIf.registeredAll c.procedures others.1))).getD []) d

theorem StmtsRead.cons {a : Stmt} {as : List Stmt} {e : Cursor} (h : StmtRead c a d) (hr : StmtsRead d as e) :
    StmtsRead c (a :: as) e := by
  unfold StmtsRead at hr
  rw [h.2.procedures] at hr
  have hboth := h.2.trans hr
  rwa [StmtsRead, Stmt.registeredAll, Stmt.callsAll]

/-- Statements between the head of a statement and the word that closes it. -/
theorem StmtsRead.closed {b e f : Cursor} (hhead : Passes c b) (hbody : StmtsRead b body d)
    (hclose : Passes d e) (hskip : Leads e e.procedures [] f) :
    c.position < f.position ∧ Leads c (Stmt.registeredAll c.procedures body) (Stmt.callsAll c.procedures body) f := by
  have hall := (hbody.pass hclose).keep hskip
  rw [hhead.2.procedures] at hall
  exact hhead.leads hall

theorem BranchesRead.refl : BranchesRead c ([], none) c := ⟨Nat.le_refl _, rfl, (List.append_nil _).symm⟩

theorem StmtsRead.last {b : Cursor} (hbody : StmtsRead b body d) (hhead : Passes c b) :
    BranchesRead c ([], some body) d := by
  have hall := (hhead.leads hbody).2
  rwa [hhead.2.procedures] at hall

theorem BranchesRead.cons {others : List ElseIf × Option (List Stmt)} {cond : Expr}
    {b e : Cursor} (h : BranchesRead d others e) (hhead : Passes c b) (hbody : StmtsRead b body d) :
    BranchesRead c (⟨cond, body, line⟩ :: others.1, others.2) e := by
  have hall := (hhead.leads (hbody.trans h)).2
  rw [hbody.procedures, hhead.2.procedures, ← List.append_assoc] at hall
  exact hall

theorem BranchesRead.closed {others : List ElseIf × Option (List Stmt)} {cond : Expr}
    {b e f g : Cursor} (h : BranchesRead d others e) (hhead : Passes c b) (hbody : StmtsRead b body d) (hclose : Passes e f)
    (hskip : Leads f f.procedures [] g) : StmtRead c (.ifElse cond body others.1 others.2 line) g := by
  have hall := hhead.leads (hbody.trans ((h.pass hclose).keep hskip))
  rw [hbody.procedures, hhead.2.procedures] at hall
  rwa [StmtRead, Stmt.registered_ifElse, Stmt.calls_ifElse]

/-- A call is recorded when its tokens have been taken. -/
theorem called {name : String} (h : Passes c d) :
    StmtRead c (.call name line) { d with calls := d.calls ++ [(name, d.procedures)] } := by
  refine ⟨h.1, h.2.position, h.2.procedures, ?_⟩
  rw [h.2.procedures, h.2.calls, List.append_nil]
  rfl

theorem callStmt (hw : (shown tokens c.position).isKeyword "call" = true) :
    Reads tokens Walk.callStmt Reader.callStmt c (StmtRead c) := by
  refine (word hw).bind fun t d ⟨_, h1⟩ => identifier.bind fun name e h2 => semicolon.discard fun _ f h3 => ?_
  exact recordCall (pure (called (h1.trans (h2.trans h3))))

variable {stmt : Walk Stmt} {stmt' : Reader Stmt} {p : Nat}
  (hstmt : ∀ d, p ≤ d.position → Reader.startsStatement (shown tokens d.position) = true →
    Reads tokens stmt stmt' d (StmtRead d))
  (hb : tokens.length < bound) (hl : tokens.length < limit)

include hb hl

section

include hstmt

theorem stmts (c : Cursor) (hp : p ≤ c.position) :
    Reads tokens (Walk.stmts bound stmt) (Reader.stmts limit stmt') c (StmtsRead c) :=
  many hstmt (·.1) (fun _ => .refl) .cons c hp (by omega) (by omega)

theorem whileStmt (hp : p ≤ c.position + 1) (hw : (shown tokens c.position).isKeyword "while" = true) :
    Reads tokens (Walk.whileStmt bound stmt) (Reader.whileStmt limit stmt') c (StmtRead c) := by
  refine (word hw).bind fun t d ⟨_, h1⟩ => (expr hb hl d).bind fun cond e h2 => keyword.discard fun _ f h3 => ?_
  have hhead : Passes c f := h1.trans (h2.trans h3)
  have hlt := hhead.1
  refine (stmts hstmt hb hl f (by omega)).bind fun body b h4 => keyword.discard fun _ e h5 => ?_
  exact last skipSemicolon fun _ g h6 => h4.closed hhead h5 h6

theorem forStmt (hp : p ≤ c.position + 1) (hw : (shown tokens c.position).isKeyword "for" = true) :
    Reads tokens (Walk.forStmt bound stmt) (Reader.forStmt limit stmt') c (StmtRead c) := by
  refine (word hw).bind fun t d ⟨_, h1⟩ => identifier.bind fun counter e h2 => (expect (by decide)).discard fun _ f h3 => ?_
  refine (expr hb hl f).bind fun start d h4 => keyword.discard fun _ e h5 => ?_
  refine (expr hb hl e).bind fun limit b h6 => keyword.discard fun _ f h7 => ?_
  have hhead : Passes c f := h1.trans (h2.trans (h3.trans (h4.trans (h5.trans (h6.trans h7)))))
  have hlt := hhead.1
  refine (stmts hstmt hb hl f (by omega)).bind fun body b h4 => keyword.discard fun _ e h5 => ?_
  exact last skipSemicolon fun _ g h6 => h4.closed hhead h5 h6

theorem groupStmt (hp : p ≤ c.position + 1) (hw : (shown tokens c.position).isKeyword "begin" = true) :
    Reads tokens (Walk.groupStmt bound stmt) (Reader.groupStmt limit stmt') c (StmtRead c) := by
  refine (word hw).bind fun t d ⟨_, h1⟩ => ?_
  have hlt := h1.1
  refine (stmts hstmt hb hl d (by omega)).bind fun body b h4 => keyword.discard fun _ e h5 => ?_
  exact last skipSemicolon fun _ g h6 => h4.closed h1 h5 h6

theorem branches {n m : Nat} (c : Cursor) (hp : p ≤ c.position) (hn : tokens.length < n + c.position)
    (hm : tokens.length < m + c.position) :
    Reads tokens (Walk.branches bound stmt n) (do
      let elseIfs ← Reader.many m (fun s => s.current.isKeyword "else" && s.next.isKeyword "if") (Reader.elseIf limit stmt')
      let rest ← Reader.otherwise limit stmt'
      return (elseIfs, rest)) c (BranchesRead c) := by
  induction n generalizing c m with
  | zero => exact fun ht => absurd ht (by omega)
  | succ n ih =>
    intro ht
    obtain ⟨m, rfl⟩ : ∃ k, m = k + 1 := ⟨m - 1, by omega⟩
    revert ht
    by_cases hword : (shown tokens c.position).isKeyword "else" = true
    · have hne := Token.kind_ne_eof_of_is hword (by decide)
      by_cases hif : (shown tokens (c.advance tokens).position).isKeyword "if" = true
      · -- one more guarded branch
        refine congr ?_ (Reader.many_bind_of_more ?_).symm
        · rw [Reader.elseIf_bind]
          refine look ?_
          rw [if_pos hword]
          refine (advance hne).bind ?_
          rintro _ _ ⟨rfl, rfl, h1⟩
          refine look ?_
          rw [if_pos hif]
          refine (word hif).discard fun _ d ⟨_, h2⟩ => (expr hb hl d).bind fun cond e h3 => keyword.discard fun _ f h4 => ?_
          have hhead : Passes c f := h1.trans (h2.trans (h3.trans h4))
          have hlt := hhead.1
          refine (stmts hstmt hb hl f (by omega)).bind fun body b h5 => ?_
          have hpos := h5.position
          refine congr (last (ih (m := m) b (by omega) (by omega) (by omega)) fun others d h6 => h6.cons hhead h5) ?_
          simp only [LawfulMonad.bind_assoc, LawfulMonad.pure_bind]
        · rw [Cursor.input_current, Cursor.input_next hne, hword, hif]
          rfl
      · -- the branch without a condition
        refine congr ?_ (Reader.many_bind_of_end ?_).symm
        · refine congr ?_ (Reader.otherwise_bind.trans (if_pos (by rwa [Cursor.input_current]))).symm
          refine look ?_
          rw [if_pos hword]
          refine (advance hne).discard ?_
          rintro _ _ ⟨rfl, rfl, h1⟩
          refine look ?_
          rw [if_neg hif]
          have hlt := h1.1
          exact last (stmts hstmt hb hl _ (by omega)) fun body d h2 => h2.last h1
        · rw [Cursor.input_current, Cursor.input_next hne, hword]
          simpa using hif
    · refine congr ?_ (Reader.many_bind_of_end ?_).symm
      · refine congr ?_ (Reader.otherwise_bind.trans (if_neg (by rwa [Cursor.input_current]))).symm
        refine look ?_
        rw [if_neg hword]
        exact pure .refl
      · rw [Cursor.input_current]
        simp [hword]

theorem ifStmt (hp : p ≤ c.position + 1) (hw : (shown tokens c.position).isKeyword "if" = true) :
    Reads tokens (Walk.ifStmt bound stmt) (Reader.ifStmt limit stmt') c (StmtRead c) := by
  refine (word hw).bind fun t d ⟨_, h1⟩ => (expr hb hl d).bind fun cond e h2 => keyword.discard fun _ f h3 => ?_
  have hhead : Passes c f := h1.trans (h2.trans h3)
  have hlt := hhead.1
  refine (stmts hstmt hb hl f (by omega)).bind fun body b h4 => ?_
  have hrest : Reads tokens (Walk.branches bound stmt bound >>= fun others => Walk.keyword "endif" >>= fun _ =>
      Walk.skip .semicolon >>= fun _ => Pure.pure (Stmt.ifElse cond body others.1 others.2 t.line))
    ((do
      let elseIfs ← Reader.many limit (fun s => s.current.isKeyword "else" && s.next.isKeyword "if") (Reader.elseIf limit stmt')
      let rest ← Reader.otherwise limit stmt'
      return (elseIfs, rest)) >>= fun others => Functor.discard (Reader.keyword "endif") >>= fun _ =>
      Reader.skipSemicolon >>= fun _ => Pure.pure (Stmt.ifElse cond body others.1 others.2 t.line)) b (StmtRead c) := by
    have hpos := h4.position
    refine (branches hstmt hb hl b (by omega) (by omega) (by omega)).bind fun others d h5 => keyword.discard fun _ e h6 => ?_
    exact last skipSemicolon fun _ f h7 => h5.closed hhead h4 h6 h7
  refine hrest.congr ?_
  simp only [LawfulMonad.bind_assoc, LawfulMonad.pure_bind]

theorem block (c : Cursor) (hp : p ≤ c.position) :
    Reads tokens (Walk.block bound stmt) (Reader.block limit stmt') c (BlockRead c) := by
  refine current ((decls hb hl c).bind fun ds d ⟨h1, hne⟩ => current (ite (fun hs => ?_) fun _ => ite (fun _ => stop) fun hds => ?_))
  · refine last (hstmt d (Nat.le_trans hp h1.position) hs) fun a e h2 => ?_
    have hstep := h2.2
    rw [h1.procedures] at hstep
    exact ⟨Nat.lt_of_le_of_lt h1.position h2.1, h1.trans hstep⟩
  · refine pure ⟨hne (by simpa using hds), ?_⟩
    exact h1

theorem procedureStmt (hp : p ≤ c.position + 1) (hw : (shown tokens c.position).isKeyword "procedure" = true) :
    Reads tokens (Walk.procedureStmt bound stmt) (Reader.procedureStmt limit stmt') c (StmtRead c) := by
  refine (word hw).bind fun t d ⟨_, h1⟩ => identifier.bind fun name e h2 => ?_
  refine procedures (setProcedures rfl (semicolon.discard fun _ f h3 => get (procedures ?_)))
  have hlt : c.position < f.position := Nat.lt_trans (h1.trans h2).1 h3.1
  refine (block hstmt hb hl f (by omega)).bind fun body b h4 => setProcedures rfl (last skipSemicolon fun _ g h5 => ?_)
  have hnames : f.procedures = name.text :: c.procedures := by rw [h3.2.procedures, h2.2.procedures, h1.2.procedures]
  have hcalls : f.calls = c.calls := by rw [h3.2.calls, h2.2.calls, h1.2.calls]; simp
  refine ⟨Nat.lt_of_lt_of_le (Nat.lt_trans hlt h4.1) h5.position, ?_⟩
  refine ⟨Nat.le_of_lt (Nat.lt_of_lt_of_le (Nat.lt_trans hlt h4.1) h5.position), h5.procedures.trans hnames, ?_⟩
  rw [h5.calls, List.append_nil, h4.2.calls, hcalls, hnames]
  rfl

end

theorem assignOrCall (hk : (shown tokens c.position).kind = .identifier) :
    Reads tokens (Walk.assignOrCall bound) (Reader.assignOrCall limit) c (StmtRead c) := by
  have hne : (shown tokens c.position).kind ≠ .eof := by rw [hk]; decide
  refine get ((advance hne).bind ?_)
  rintro t _ ⟨rfl, rfl, h1⟩
  rw [Cursor.input_next hne]
  refine look (ite (fun ha => ?_) fun _ => procedures ?_)
  · refine (advance (by rw [ha]; decide)).discard fun _ d h2 => (expr hb hl d).bind fun value e h3 => ?_
    exact semicolon.discard fun _ f h4 => pure (h1.trans (h2.2.2.trans (h3.trans h4)))
  · rw [Cursor.advance_procedures]
    refine ite (fun _ => ?_) fun _ => stop
    exact semicolon.discard fun _ d h2 => recordCall (pure (called (h1.trans h2)))

theorem readStmt (hw : (shown tokens c.position).isKeyword "read" = true) :
    Reads tokens (Walk.readStmt bound) (Reader.readStmt limit) c (StmtRead c) := by
  refine (word hw).bind fun t d ⟨_, h1⟩ => current (ite (fun hopen => ?_) fun _ => ?_)
  · refine (advance (Token.kind_ne_eof_of_is hopen (by decide))).discard fun _ e h2 => ?_
    refine (items (p := 0) (fun _ _ => identifier) e (Nat.zero_le _) hb hl).bind fun names f h3 => ?_
    refine closeParen.discard fun _ d h4 => semicolon.discard fun _ b h5 => pure ?_
    exact h1.trans (h2.2.2.trans (h3.trans (h4.trans h5)))
  · exact identifier.bind fun name e h2 => semicolon.discard fun _ f h3 => pure (h1.trans (h2.trans h3))

theorem parenthesized (c : Cursor) :
    Reads tokens (Walk.parenthesized bound) (Reader.parenthesized limit) c fun _ d => Passes c d :=
  (expectText (by decide)).discard fun _ d h1 => (items (p := 0) (fun d _ => expr hb hl d) d (Nat.zero_le _) hb hl).bind
    fun values e h2 => closeParen.discard fun _ f h3 => pure (h1.trans (h2.trans h3))

theorem bareWrite (line : Nat) (c : Cursor) :
    Reads tokens (Walk.bareWrite bound line) (Reader.bareWrite limit line) c (StmtRead c) :=
  (items (p := 0) (fun d _ => expr hb hl d) c (Nat.zero_le _) hb hl).bind fun _ _ h1 => semicolon.discard fun _ _ h2 =>
    pure (h1.trans h2)

/-- The second reading starts with the same tokens and the same names. -/
theorem listOrBare (line : Nat) {j : Nat} (hword : (shown tokens j).isKeyword "write" = true) (hj : c.position = j + 1)
    (hopen : (shown tokens c.position).is .parenthesis "(" = true) :
    Reads tokens (Walk.listOrBare bound line) (Reader.listOrBare limit line) c (StmtRead c) := by
  intro ht
  obtain ⟨x, d, hx, hr, hd, hq⟩ := parenthesized hb hl c ht
  have hplain : RegularAt True (Walk.parenthesized bound) tokens c := .parenthesized c
  have hkeeps := hplain.keeps hx
  have hback : c.Follows tokens (d.moveTo c.position) :=
    ⟨ht, fun hc => (hd.tracked hc).moveTo ht (.inr ⟨hkeeps.position, hopen, j, hj, hword⟩)⟩
  obtain ⟨hnames, hcalls⟩ := hkeeps.plain trivial
  have hsecond : Reads tokens (Walk.again (reach x d) (Walk.bareWrite bound line)) (Reader.bareWrite limit line)
      (d.moveTo c.position) (StmtRead c) := by
    refine again ((bareWrite hb hl line _).mono fun a e h => ?_)
    rw [StmtRead, Cursor.moveTo_procedures, hnames] at h
    exact ⟨h.1, h.2.position, h.2.procedures, by rw [h.2.calls, Cursor.moveTo_calls, hcalls]⟩
  have hinput : (d.moveTo c.position).input tokens = c.input tokens := by
    unfold Cursor.input
    rw [Cursor.moveTo_procedures, hnames]
    rfl
  obtain ⟨y, b, hy, hbare, hb', hq'⟩ := hsecond ht
  rw [hinput] at hbare
  unfold Reader.listOrBare
  rw [hr]
  obtain ⟨values, rfl, hk, hrun⟩ | ⟨hk, hrun⟩ := listOrBare_of_run line hx
  · refine ⟨_, _, hrun, ?_, hd.trans (.advance hd.within), ?_⟩
    · simp only [outcome, Cursor.input_current, hk, if_true, Cursor.input_advance]
    · have hlt : d.position < tokens.length := Token.lt_of_shown (by rw [hk]; decide)
      exact Passes.trans hq (.advance hlt)
  · refine ⟨y, b, hrun.trans hy, ?_, hback.trans hb', hq'⟩
    cases x with
    | ok values => simpa only [outcome, Cursor.input_current, hk values rfl, if_false] using hbare
    | error e => exact hbare

theorem writeStmt (hw : (shown tokens c.position).isKeyword "write" = true) :
    Reads tokens (Walk.writeStmt bound) (Reader.writeStmt limit) c (StmtRead c) := by
  have hlt : c.position < tokens.length := Token.lt_of_shown (Token.kind_ne_eof_of_is hw (by decide))
  rw [Reader.writeStmt_eq]
  refine (advance (Token.kind_ne_eof_of_is hw (by decide))).bind ?_
  rintro _ _ ⟨rfl, rfl, h1⟩
  have hread (a : Stmt) (e : Cursor) (h2 : StmtRead (c.advance tokens) a e) : StmtRead c a e := by
    have hboth := h1.leads h2.2
    rwa [h1.2.procedures] at hboth
  refine current (ite (fun hopen => ?_) fun _ => (bareWrite hb hl _ _).mono hread)
  exact (listOrBare hb hl _ hw (by rw [Cursor.advance_of_lt hlt]; rfl) hopen).mono hread

theorem stmtWithin {n m : Nat} (c : Cursor) (hs : Reader.startsStatement (shown tokens c.position) = true)
    (hn : tokens.length < n + c.position) (hm : tokens.length < m + c.position) :
    Reads tokens (Walk.stmtWithin bound n) (Reader.stmtWithin limit m) c (StmtRead c) := by
  induction n generalizing c m with
  | zero => exact fun ht => absurd ht (by omega)
  | succ n ih =>
    intro ht
    obtain ⟨m, rfl⟩ : ∃ k, m = k + 1 := ⟨m - 1, by omega⟩
    revert ht
    have hin (d : Cursor) (hd : c.position + 1 ≤ d.position) (hs : Reader.startsStatement (shown tokens d.position) = true) :
        Reads tokens (Walk.stmtWithin bound n) (Reader.stmtWithin limit m) d (StmtRead d) :=
      ih d hs (by omega) (by omega)
    refine current (ite (fun hk => assignOrCall hb hl hk) fun hk => ?_)
    have hkey := Reader.keyword_of_startsStatement hs hk
    have hword {w : String} (hw : (shown tokens c.position).text = w) : (shown tokens c.position).isKeyword w = true :=
      Token.is_iff.mpr ⟨hkey, hw⟩
    generalize hw : (shown tokens c.position).text = text
    split
    · exact ifStmt hin hb hl (Nat.le_refl _) (hword hw)
    · exact whileStmt hin hb hl (Nat.le_refl _) (hword hw)
    · exact forStmt hin hb hl (Nat.le_refl _) (hword hw)
    · exact readStmt hb hl (hword hw)
    · exact writeStmt hb hl (hword hw)
    · exact callStmt (hword hw)
    · exact groupStmt hin hb hl (Nat.le_refl _) (hword hw)
    · exact procedureStmt hin hb hl (Nat.le_refl _) (hword hw)
    · simp_all [Reader.startsStatement, Reader.statementWords]

theorem programBlock (c : Cursor) :
    Reads tokens (Walk.block bound (Walk.stmt bound)) (Reader.block limit (Reader.stmt limit)) c (BlockRead c) :=
  block (p := 0) (fun d _ hs => stmtWithin hb hl d hs (by omega) (by omega)) hb hl c (Nat.zero_le _)

theorem program (c : Cursor) : Reads tokens (Walk.program bound) (Reader.program limit) c fun p d =>
    d.calls = c.calls ++ Block.callsAll c.procedures p.blocks := by
  refine current ((many (p := 0) (T := fun b bs d => d.calls = b.calls ++ Block.callsAll b.procedures bs)
    (fun d _ _ => programBlock hb hl d) (·.1)
    (fun _ => (List.append_nil _).symm) ?_ c (Nat.zero_le _) (by omega) (by omega)).bind fun bs d h1 =>
    ite (fun _ => stop) fun _ => ?_)
  · intro b a d as e hd he
    rw [he, hd.2.calls, hd.2.procedures, List.append_assoc]
    rfl
  · have hend (e : Cursor) (he : Leads d d.procedures [] e) : Reads tokens
        (Walk.expect .eof .endOfInput >>= fun _ => Pure.pure (⟨bs, (shown tokens c.position).line⟩ : Program))
        (Functor.discard (Reader.expect .eof .endOfInput) >>= fun _ => Pure.pure (⟨bs, (shown tokens c.position).line⟩ : Program)) e
        fun p d => d.calls = c.calls ++ Block.callsAll c.procedures p.blocks := by
      refine discard (current (ite (fun _ => advance_or_stay) fun _ => stop)) ?_
      rintro _ _ ⟨-, rfl⟩
      refine pure ?_
      rw [Cursor.advance_calls, he.calls, List.append_nil, h1]
    have hperiod : TokenKind.period ≠ .eof := by decide
    refine ((skip hperiod).bind fun _ => hend).congr ?_
    simp only [LawfulMonad.bind_assoc]
    refine congrFun (congrArg (Reader.current >>= ·) (funext fun t => ?_)) _
    split
    · rfl
    · exact LawfulMonad.pure_bind _ _

end Statements

end Reads

end Walk

theorem Expr.Derivation.ne_nil {tier : Grammar.Tier} {ts : List Token} {e : Expr} (h : e.Derivation tier ts) : ts ≠ [] := by
  induction h with
  | number | name | parens | multiply | add | compare => simp
  | factor _ ih | product _ ih | sum _ ih => exact ih

namespace Reader

/-- Where `r` succeeds, fewer tokens are left. -/
def Consumes (r : Reader α) (s : Input) : Prop := ∀ a s', r s = .ok (a, s') → s'.rest.length < s.rest.length

theorem Takes.consumes {r : Reader α} {s : Input} {bound : Nat} {Q : List Token → α → Input → Prop}
    (h : Takes bound r s Q) (hb : s.rest.length < bound) (hne : ∀ {ts a s'}, Q ts a s' → ts ≠ []) : r.Consumes s := by
  intro a s' hr
  obtain ⟨ts, hts, -, hq⟩ := h hb a s' hr
  have hpos : 0 < ts.length := List.length_pos_iff.mpr (hne hq)
  rw [hts, List.length_append]
  omega

end Reader

namespace Program

variable {bound : Nat}

theorem walks (tokens : List Token) (hb : tokens.length < bound) :
    ∃ result c, Walk.program bound tokens .start = some (result, c) ∧
      result.mapError (·.error) = ofTokens tokens ∧ c.Tracked tokens ∧
      Walk.Meets tokens (fun p d => d.calls = p.calls) result c := by
  obtain ⟨result, c, hw, hr, ht, hm⟩ := Walk.Reads.program hb (Nat.lt_succ_self tokens.length) .start (Nat.zero_le _)
  refine ⟨result, c, hw, ?_, ht.tracked .start, hm⟩
  have hread : ofTokens tokens = (Walk.outcome tokens result c).map (·.1) := by rw [← hr]; rfl
  rw [hread]
  cases result <;> rfl

/-- Every bound behind the last token is enough: the walk has an answer, which is that of the reader at any such
bound, its position never lies behind the end and goes back only to the parenthesis behind a `write`. What reads a
statement, a block, or an expression of any tier takes a token where it succeeds. -/
theorem reading_ends (tokens : List Token) (hb : tokens.length < bound) :
    (∃ result c, Walk.program bound tokens .start = some (result, c) ∧
      result.mapError (·.error) = ofTokens tokens ∧ c.Tracked tokens) ∧
    (Reader.program bound ⟨tokens, (tokens.getLast?.map (·.line)).getD 1, []⟩).map (·.1) = ofTokens tokens ∧
    ∀ (s : Input) (n : Nat), s.rest.length < bound →
      (Reader.startsStatement s.current = true → (Reader.stmtWithin bound n).Consumes s) ∧
      (Reader.block bound (Reader.stmtWithin bound n)).Consumes s ∧
      (Reader.exprWithin bound n).Consumes s ∧
      (Reader.sum bound (Reader.exprWithin bound n)).Consumes s ∧
      (Reader.chained bound .multiplicative (Reader.factor (Reader.exprWithin bound n))).Consumes s ∧
      (Reader.factor (Reader.exprWithin bound n)).Consumes s := by
  obtain ⟨result, c, hw, hr, ht, -⟩ := walks tokens hb
  refine ⟨⟨result, c, hw, hr, ht⟩, ?_, fun s n hs => ?_⟩
  · obtain ⟨result', c', hw', hread, -⟩ := Walk.Reads.program hb hb .start (Nat.zero_le _)
    obtain ⟨rfl, rfl⟩ : result = result' ∧ c = c' := by simpa [hw] using hw'
    have hmap : (Reader.program bound ⟨tokens, (tokens.getLast?.map (·.line)).getD 1, []⟩).map (·.1) =
        (Walk.outcome tokens result c).map (·.1) := by rw [← hread]; rfl
    rw [hmap, ← hr]
    cases result <;> rfl
  · refine ⟨fun hst => ?_, ?_, ?_, ?_, ?_, ?_⟩
    · refine (Reader.Takes.stmtWithin n s hst).consumes hs fun h => ?_
      obtain ⟨t, us, rfl, -⟩ := (h.1 none Input.faces_none).starts
      exact List.cons_ne_nil t us
    · refine (Reader.Takes.block (Reader.Takes.stmtWithin n) rfl).consumes hs fun h => ?_
      obtain ⟨t, us, rfl, -⟩ := (h.1 none Input.faces_none).starts
      exact List.cons_ne_nil t us
    · exact (Reader.Takes.exprWithin n s).consumes hs fun h => h.2.ne_nil
    · exact (Reader.Takes.sum (Reader.Takes.exprWithin n) s).consumes hs fun h => h.2.ne_nil
    · exact (Reader.Takes.chained (P := Expr.Derivation .product) (Reader.Takes.factor (Reader.Takes.exprWithin n)) .factor
        .multiply s).consumes hs fun h => h.2.ne_nil
    · exact (Reader.Takes.factor (Reader.Takes.exprWithin n) s).consumes hs fun h => h.2.ne_nil

/-- A second reading, and an end token in the middle. -/
theorem reading_ends_after_return : ∃ tokens : List Token,
    tokens.map (·.text) = ["write", "(", "1", ")", "*", "2", ";", "", "("] ∧ tokens.length < 10 ∧
    (∃ result c, Walk.program 10 tokens .start = some (result, c) ∧ result.mapError (·.error) = ofTokens tokens ∧
      c.Tracked tokens) ∧
    (Walk.program 10 tokens .start).map (·.2.visited) = some [7, 6, 5, 4, 3, 2, 1, 4, 3, 2, 1, 0] := by
  refine ⟨(Scan.ofSource "write (1) * 2;").tokens ++ [⟨.parenthesis, "(", 1⟩], by decide +kernel, by decide +kernel, ?_,
    by decide +kernel⟩
  exact (reading_ends _ (by decide +kernel)).1

end Program

end PLZero
