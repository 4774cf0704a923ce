import PLZero.Program.Parse
import PLZero.Proofs.Grammar

/-! What is read follows the grammar: the tokens that a reader takes, all of them and in order, derive the tree
that it returns. -/

namespace PLZero

variable {names : List String} {ts : List Token}

open Grammar

namespace Token

variable {t : Token} {kind : TokenKind} {text : String}

theorem is_iff : t.is kind text = true ↔ t.kind = kind ∧ t.text = text := by simp [Token.is]

theorem kind_ne_eof_of_is (h : t.is kind text = true) (hk : kind ≠ .eof) : t.kind ≠ .eof :=
  (is_iff.mp h).1 ▸ hk

end Token

namespace Input

variable {s : Input}

theorem rest_of_current (h : s.current.kind ≠ .eof) : s.rest = s.current :: s.advance.rest := by
  unfold current at h ⊢
  unfold advance
  split at h
  · simp [*]
  · exact absurd rfl h

@[simp] theorem current_cons (t : Token) (ts : List Token) (line : Nat) (names : List String) :
    (⟨t :: ts, line, names⟩ : Input).current = t := rfl

theorem current_of_rest {t : Token} (h : s.rest = t :: ts) : s.current = t := by
  simp [current, h]

theorem current_advance (h : s.current.kind ≠ .eof) : s.advance.current = s.next := by
  have hr := rest_of_current h
  unfold current next
  rw [hr]
  cases s.advance.rest <;> rfl

/-- The token that comes next, where one is named, is the current one. -/
def Faces (s : Input) (next : Option Token) : Prop := ∀ t ∈ next, t = s.current

theorem faces_none : s.Faces none := nofun

theorem faces_head {s' : Input} (h : s.rest = ts ++ s'.rest) : s.Faces ts.head? := by
  intro t ht
  cases ts with
  | nil => cases ht
  | cons t' ts =>
    cases ht
    exact (current_of_rest h).symm

end Input

namespace Reader

variable {α β : Type} {bound : Nat} {s : Input}

/-- Where `r` succeeds with fewer than `bound` tokens left, it has taken some of them from the front, no end
token among them, and `Q` relates them to the result and to what is left. -/
def Takes (bound : Nat) (r : Reader α) (s : Input) (Q : List Token → α → Input → Prop) : Prop :=
  s.rest.length < bound → ∀ a s', r s = .ok (a, s') →
    ∃ ts, s.rest = ts ++ s'.rest ∧ (∀ t ∈ ts, t.kind ≠ .eof) ∧ Q ts a s'

/-- The names in sight stay as they are. -/
def Keeps (names : List String) (R : List Token → α → Prop) (ts : List Token) (a : α) (s' : Input) : Prop :=
  s'.procedures = names ∧ R ts a

/-- Items read one after the other, each of them as `Q` says. -/
inductive Chain (Q : Input → List Token → α → Input → Prop) : Input → List Token → List α → Input → Prop
  | nil (s : Input) : Chain Q s [] [] s
  | cons {s s' s'' : Input} {ts us : List Token} {a : α} {as : List α} (h : Q s ts a s')
      (hr : Chain Q s' us as s'') : Chain Q s (ts ++ us) (a :: as) s''

theorem ok_of_bind {r : Reader α} {f : α → Reader β} {b : β} {s'' : Input} (h : (r >>= f) s = .ok (b, s'')) :
    ∃ a s', r s = .ok (a, s') ∧ f a s' = .ok (b, s'') := by
  simp only [Bind.bind, StateT.bind] at h
  cases hrs : r s with
  | error e => rw [hrs] at h; cases h
  | ok x => exact ⟨x.1, x.2, rfl, by rwa [hrs] at h⟩

theorem ok_of_discard {r : Reader α} {u : PUnit} {s' : Input} (h : (discard r : Reader PUnit) s = .ok (u, s')) :
    ∃ a, r s = .ok (a, s') := by
  simp only [Functor.discard, Functor.mapConst, StateT.map, Function.comp] at h
  cases hrs : r s with
  | error e => rw [hrs] at h; cases h
  | ok x =>
    rw [hrs] at h
    cases h
    exact ⟨x.1, rfl⟩

namespace Takes

variable {Q : List Token → α → Input → Prop} {S : List Token → β → Input → Prop} {r : Reader α}
  {what : Expected} {item : Reader α} {level : Level}

theorem pure {a : α} (h : Q [] a s) : Takes bound (pure a : Reader α) s Q := by
  intro _ b s' hr
  cases hr
  exact ⟨[], rfl, by simp, h⟩

theorem bind {f : α → Reader β} (hr : Takes bound r s Q)
    (hf : ∀ ts a s', Q ts a s' → Takes bound (f a) s' fun us => S (ts ++ us)) :
    Takes bound (r >>= f) s S := by
  intro hb b s'' h
  obtain ⟨a, s', hrs, h⟩ := ok_of_bind h
  obtain ⟨ts, hts, hnts, hq⟩ := hr hb a s' hrs
  have hb' : s'.rest.length < bound := by simp only [hts, List.length_append] at hb; omega
  obtain ⟨us, hus, hnus, hs⟩ := hf ts a s' hq hb' b s'' h
  refine ⟨ts ++ us, by simp [hts, hus], ?_, hs⟩
  intro t ht
  exact (List.mem_append.mp ht).elim (hnts t) (hnus t)

theorem mono {Q' : List Token → α → Input → Prop} (hr : Takes bound r s Q)
    (h : ∀ ts a s', Q ts a s' → Q' ts a s') : Takes bound r s Q' := by
  intro hb a s' hrs
  obtain ⟨ts, hts, hn, hq⟩ := hr hb a s' hrs
  exact ⟨ts, hts, hn, h ts a s' hq⟩

theorem last {g : α → β} (hr : Takes bound r s Q) (h : ∀ ts a s', Q ts a s' → S ts (g a) s') :
    Takes bound (r >>= fun a => Pure.pure (g a)) s S :=
  hr.bind fun ts a s' hq => pure (by simpa using h ts a s' hq)

theorem rest (hr : Takes bound r s Q) :
    Takes bound r s fun ts a s' => s.rest = ts ++ s'.rest ∧ Q ts a s' := by
  intro hb a s' hrs
  obtain ⟨ts, hts, hn, hq⟩ := hr hb a s' hrs
  exact ⟨ts, hts, hn, hts, hq⟩

theorem discard (hr : Takes bound r s Q) : Takes bound (discard r) s fun ts _ s' => ∃ a, Q ts a s' := by
  intro hb u s' h
  obtain ⟨a, hrs⟩ := ok_of_discard h
  obtain ⟨ts, hts, hn, hq⟩ := hr hb a s' hrs
  exact ⟨ts, hts, hn, a, hq⟩

theorem ite {c : Prop} [Decidable c] {r' : Reader α} (hr : c → Takes bound r s Q)
    (hr' : ¬ c → Takes bound r' s Q) : Takes bound (if c then r else r') s Q := by
  split
  · exact hr ‹_›
  · exact hr' ‹_›

theorem stop : Takes bound (stop what : Reader α) s Q := by
  intro _ a s' h
  cases h

theorem current {f : Token → Reader β} (h : Takes bound (f s.current) s S) :
    Takes bound (Reader.current >>= f) s S := h

theorem advance (hk : s.current.kind ≠ .eof) :
    Takes bound advance s fun ts t s' => ts = [s.current] ∧ t = s.current ∧ s' = s.advance := by
  intro _ t s' h
  cases h
  exact ⟨[s.current], Input.rest_of_current hk, by simpa using hk, rfl, rfl, rfl⟩

theorem expect {kind : TokenKind} (hk : kind ≠ .eof) (hs : s.procedures = names) :
    Takes bound (expect kind what) s
      (Keeps names fun ts t => ts = [t] ∧ t = s.current ∧ t.kind = kind) := by
  refine current (ite (fun hc => ?_) fun _ => stop)
  refine (advance (hc ▸ hk)).mono ?_
  rintro _ _ _ ⟨rfl, rfl, rfl⟩
  exact ⟨hs, rfl, rfl, hc⟩

theorem expectText {kind : TokenKind} {text : String} (hk : kind ≠ .eof)
    (hs : s.procedures = names) :
    Takes bound (expectText kind text what) s
      (Keeps names fun ts t => ts = [t] ∧ t.is kind text = true) := by
  refine current (ite (fun hc => ?_) fun _ => stop)
  refine (advance (Token.kind_ne_eof_of_is hc hk)).mono ?_
  rintro _ _ _ ⟨rfl, rfl, rfl⟩
  exact ⟨hs, rfl, hc⟩

theorem keyword {word : String} (hs : s.procedures = names) :
    Takes bound (keyword word) s (Keeps names fun ts t => ts = [t] ∧ t.isKeyword word = true) :=
  expectText (by decide) hs

theorem closeParen (hs : s.procedures = names) :
    Takes bound closeParen s (Keeps names fun ts t => ts = [t] ∧ t.is .parenthesis ")" = true) :=
  expectText (by decide) hs

theorem semicolon (hs : s.procedures = names) :
    Takes bound semicolon s (Keeps names fun ts t => ts = [t] ∧ t.kind = .semicolon) :=
  (expect (by decide) hs).mono fun _ _ _ ⟨h, hts, _, hk⟩ => ⟨h, hts, hk⟩

theorem identifier (hs : s.procedures = names) :
    Takes bound identifier s (Keeps names fun ts t => ts = [t] ∧ t.kind = .identifier) :=
  (expect (by decide) hs).mono fun _ _ _ ⟨h, hts, _, hk⟩ => ⟨h, hts, hk⟩

theorem skipSemicolon (hs : s.procedures = names) :
    Takes bound skipSemicolon s fun ts _ s' => s'.procedures = names ∧
      ∀ next, s'.Faces next → Optional .semicolon next ts ∧ s.Faces (ts.head?.or next) := by
  refine current (ite (fun hc => ?_) fun hc => pure ⟨hs, fun next hn => ⟨.absent fun t ht => hn t ht ▸ hc, hn⟩⟩)
  have hk : s.current.kind ≠ .eof := by rw [hc]; decide
  refine (advance hk).discard.mono ?_
  rintro _ _ _ ⟨_, rfl, rfl, rfl⟩
  exact ⟨hs, fun next _ => ⟨.present hc, fun t ht => (Option.mem_some.mp ht).symm⟩⟩

theorem number (hs : s.procedures = names) :
    Takes bound number s (Keeps names fun ts v =>
      ts = [s.current] ∧ s.current.kind = .number ∧ Text.readWord s.current.text.toList = some v) := by
  refine (expect (by decide) hs).bind ?_
  rintro _ _ s' ⟨hs', rfl, rfl, hk⟩
  split
  · next v hv => exact pure ⟨hs', rfl, hk, hv⟩
  · intro _ a s'' h
    cases h

theorem manyBehind {more : Input → Bool} {Q : Input → List Token → α → Input → Prop}
    (hi : ∀ s, more s = true → Takes bound item s (Q s)) (hpos : ∀ s ts a s', Q s ts a s' → ts ≠ [])
    (n : Nat) (hn : s.rest.length < n) (read : Array α) :
    Takes bound (manyBehind more item n read) s fun ts as s' =>
      ∃ new, as.toList = read.toList ++ new ∧ Chain Q s ts new s' ∧ more s' = false := by
  induction n generalizing s read with
  | zero => omega
  | succ n ih =>
    refine (?_ : Takes bound (if more s then _ else _) s _)
    refine ite (fun hm => (hi s hm).rest.bind ?_) fun hm => pure ⟨[], by simp, .nil s, by simpa using hm⟩
    rintro ts a s' ⟨hts, hq⟩
    have hlen : s'.rest.length < n := by
      have := List.length_pos_iff.mpr (hpos s ts a s' hq)
      simp only [hts, List.length_append] at hn
      omega
    refine (ih hlen (read.push a)).mono ?_
    rintro us as s'' ⟨new, has, hc, hend⟩
    exact ⟨a :: new, by simp [has], .cons hq hc, hend⟩

/-- No item is left out: reading stops where no further item starts. -/
theorem many {more : Input → Bool} {Q : Input → List Token → α → Input → Prop}
    (hi : ∀ s, more s = true → Takes bound item s (Q s)) (hpos : ∀ s ts a s', Q s ts a s' → ts ≠ []) :
    Takes bound (many bound more item) s fun ts as s' => Chain Q s ts as s' ∧ more s' = false := by
  intro hb
  refine (last (manyBehind hi hpos bound hb #[]) ?_) hb
  rintro ts as s' ⟨new, has, hc, hend⟩
  have heq : as.toList = new := by simpa using has
  exact ⟨heq ▸ hc, hend⟩

def Further (R : List Token → α → Prop) (s : Input) (ts : List Token) (a : α) (s' : Input) : Prop :=
  s'.procedures = s.procedures ∧ ∃ comma us, ts = comma :: us ∧ comma.kind = .comma ∧ R us a

theorem listed_of_chain {R : List Token → α → Prop} {s' : Input} {us : List Token} {a : α} {as : List α}
    (hc : Chain (Further R) s us as s') (h : R ts a) :
    Keeps s.procedures (Listed R) (ts ++ us) (a :: as) s' := by
  induction hc generalizing ts a with
  | nil s => exact ⟨rfl, by simpa using .one h⟩
  | cons hq _ ih =>
    obtain ⟨hs', comma, us, rfl, hk, hr⟩ := hq
    obtain ⟨hs'', hl⟩ := ih hr
    exact ⟨hs''.trans hs', .cons h hk hl⟩

theorem items {R : List Token → α → Prop}
    (hi : ∀ s, Takes bound item s (Keeps s.procedures R)) (hs : s.procedures = names) :
    Takes bound (items bound item) s (Keeps names (Listed R)) := by
  subst hs
  refine (hi s).bind fun ts a s' ⟨hs', ha⟩ => last (many (Q := Further R) ?_ ?_) ?_
  · intro s hm
    have hk : s.current.kind = .comma := by simpa using hm
    refine (advance (by rw [hk]; decide)).discard.bind ?_
    rintro _ _ _ ⟨_, rfl, rfl, rfl⟩
    exact (hi s.advance).mono fun us b s' ⟨h, hb⟩ => ⟨h, s.current, us, rfl, hk, hb⟩
  · rintro s _ a s' ⟨_, comma, us, rfl, _⟩
    simp
  · rintro us as s'' ⟨hc, _⟩
    obtain ⟨h, hl⟩ := listed_of_chain hc ha
    exact ⟨h.trans hs', hl⟩

theorem operatorAt_eq_some {t : Token} {op : BinOp} (h : operatorAt level t = some op) :
    t.kind = .operator ∧ t.Writes op ∧ op.level = level := by
  unfold operatorAt at h
  split at h
  · next hk =>
    obtain ⟨hop, hl⟩ := Option.filter_eq_some_iff.mp h
    have htext : op.symbol = t.text := by simpa using List.find?_some hop
    exact ⟨hk, ⟨hk, htext.symm⟩, by simpa using hl⟩
  · cases h

/-- The readers of one tier, from the one below: `P` holds of operands, and is kept by joining another one. -/
theorem chain {P R : List Token → Expr → Prop} {operand : Reader Expr}
    (ho : ∀ s, Takes bound operand s (Keeps s.procedures R))
    (hj : ∀ {ls rs l r t op}, P ls l → Token.Writes t op → op.level = level → R rs r →
      P (ls ++ t :: rs) (.binary op l r t.line))
    (n : Nat) {ls : List Token} {l : Expr} (hl : P ls l) (hs : s.procedures = names) :
    Takes bound (chain level operand n l) s (Keeps names fun us => P (ls ++ us)) := by
  induction n generalizing s ls l with
  | zero => exact pure ⟨hs, by simpa using hl⟩
  | succ n ih =>
    refine current ?_
    split
    · next op hop =>
      obtain ⟨hk, ht, hlevel⟩ := operatorAt_eq_some hop
      refine (advance (by rw [hk]; decide)).discard.bind ?_
      rintro _ _ _ ⟨_, rfl, rfl, rfl⟩
      refine (ho s.advance).bind fun rs r s' ⟨hs', hr⟩ => ?_
      refine (ih (hj hl ht hlevel hr) (hs'.trans hs)).mono fun us e s'' ⟨h, he⟩ => ⟨h, ?_⟩
      simpa using he
    · exact pure ⟨hs, by simpa using hl⟩

theorem chained {P R : List Token → Expr → Prop} {operand : Reader Expr}
    (ho : ∀ s, Takes bound operand s (Keeps s.procedures R)) (hb : ∀ {ts e}, R ts e → P ts e)
    (hj : ∀ {ls rs l r t op}, P ls l → Token.Writes t op → op.level = level → R rs r →
      P (ls ++ t :: rs) (.binary op l r t.line)) (s : Input) :
    Takes bound (chained bound level operand) s (Keeps s.procedures P) :=
  (ho s).bind fun _ _ _ ⟨hs', h⟩ => chain ho hj bound (hb h) hs'

theorem factor {inner : Reader Expr}
    (hi : ∀ s, Takes bound inner s (Keeps s.procedures (Expr.Derivation .expression))) (s : Input) :
    Takes bound (factor inner) s (Keeps s.procedures (Expr.Derivation .factor)) := by
  refine current ?_
  split
  · refine last (number rfl) ?_
    rintro _ v s' ⟨hs', rfl, hk, hv⟩
    exact ⟨hs', .number hk hv⟩
  · next hk =>
    refine last (advance (by rw [hk]; decide)).discard ?_
    rintro _ _ _ ⟨_, rfl, rfl, rfl⟩
    exact ⟨rfl, .name hk⟩
  · next hk =>
    refine ite (fun htext => ?_) fun _ => stop
    refine (advance (by rw [hk]; decide)).discard.bind ?_
    rintro _ _ _ ⟨_, rfl, rfl, rfl⟩
    refine (hi s.advance).bind fun ts e s' ⟨hs', he⟩ => last (closeParen hs').discard ?_
    rintro _ _ s'' ⟨r, hs'', rfl, hr⟩
    exact ⟨hs'', .parens (Token.is_iff.mpr ⟨hk, htext⟩) he hr⟩
  · exact stop

theorem sum {inner : Reader Expr}
    (hi : ∀ s, Takes bound inner s (Keeps s.procedures (Expr.Derivation .expression))) (s : Input) :
    Takes bound (sum bound inner) s (Keeps s.procedures (Expr.Derivation .sum)) :=
  chained (chained (factor hi) .factor .multiply) .product .add s

theorem exprWithin (n : Nat) (s : Input) :
    Takes bound (exprWithin bound n) s (Keeps s.procedures (Expr.Derivation .expression)) := by
  induction n generalizing s with
  | zero => exact stop
  | succ n ih =>
    refine (sum ih s).bind fun ls l s' ⟨hs', hl⟩ => current ?_
    split
    · next op hop =>
      obtain ⟨hk, ht, hlevel⟩ := operatorAt_eq_some hop
      refine (advance (by rw [hk]; decide)).discard.bind ?_
      rintro _ _ _ ⟨_, rfl, rfl, rfl⟩
      exact last (sum ih s'.advance) fun rs r s'' ⟨hs'', hr⟩ => ⟨hs''.trans hs', .compare hl ht hlevel hr⟩
    · exact pure ⟨hs', by simpa using .sum hl⟩

theorem expr (hs : s.procedures = names) :
    Takes bound (expr bound) s (Keeps names (Expr.Derivation .expression)) :=
  hs ▸ exprWithin bound s

theorem initial (hs : s.procedures = names) :
    Takes bound initial s (Keeps names fun ts i => ∃ t, ts = [t] ∧ i.Derivation t) := by
  refine current (ite (fun hk => ?_) fun _ => ?_)
  · refine last (advance (by rw [hk]; decide)) ?_
    rintro _ _ _ ⟨rfl, rfl, rfl⟩
    exact ⟨hs, _, rfl, .constant hk⟩
  · refine last (number hs) ?_
    rintro _ v s' ⟨hs', rfl, hk, hv⟩
    exact ⟨hs', _, rfl, .number hk hv⟩

theorem writes_eq {t : Token} (h : t.is .operator "=" = true) : t.Writes .eq := Token.is_iff.mp h

theorem constItem (s : Input) : Takes bound constItem s (Keeps s.procedures Decl.Constant) := by
  refine (identifier rfl).bind ?_
  rintro _ name s1 ⟨h1, rfl, hn⟩
  refine (expectText (by decide) h1).discard.bind ?_
  rintro _ _ s2 ⟨eq, h2, rfl, he⟩
  refine last (initial h2) ?_
  rintro _ i s3 ⟨h3, t, rfl, hi⟩
  exact ⟨h3, .mk hn (writes_eq he) hi⟩

theorem varItem (s : Input) : Takes bound varItem s (Keeps s.procedures Decl.Variable) := by
  refine (identifier rfl).bind ?_
  rintro _ name s1 ⟨h1, rfl, hn⟩
  refine current (ite (fun he => ?_) fun _ => pure ⟨h1, .plain hn⟩)
  refine (advance (Token.kind_ne_eof_of_is he (by decide))).discard.bind ?_
  rintro _ _ _ ⟨_, rfl, rfl, rfl⟩
  refine last (initial h1) ?_
  rintro _ i s3 ⟨h3, t, rfl, hi⟩
  exact ⟨h3, .initial hn (writes_eq he) hi⟩

theorem declList (s : Input) (hd : startsDecls s.current = true) :
    Takes bound (declList bound) s (Keeps s.procedures Decl.Section) := by
  have hk : s.current.kind ≠ .eof := by
    rcases Bool.or_eq_true_iff.mp hd with hw | hw <;> exact Token.kind_ne_eof_of_is hw (by decide)
  refine (advance hk).bind ?_
  rintro _ _ _ ⟨rfl, rfl, rfl⟩
  by_cases hw : s.current.isKeyword "const" = true
  · simp only [hw, if_true]
    refine (items constItem rfl).bind fun ts ds s' ⟨h, hds⟩ => last (semicolon h).discard ?_
    rintro _ _ s'' ⟨semi, hs'', rfl, hsemi⟩
    exact ⟨hs'', .const hw hds hsemi⟩
  · have hv : s.current.isKeyword "var" = true := (Bool.or_eq_true_iff.mp hd).resolve_left hw
    simp only [hw, if_false, Bool.false_eq_true]
    refine (items varItem rfl).bind fun ts ds s' ⟨h, hds⟩ => last (semicolon h).discard ?_
    rintro _ _ s'' ⟨semi, hs'', rfl, hsemi⟩
    exact ⟨hs'', .var hv hds hsemi⟩

theorem derivations_of_chain {s' : Input} {dss : List (List Decl)}
    (h : Chain (fun s => Keeps s.procedures Decl.Section) s ts dss s') :
    Keeps s.procedures Decl.Derivations ts dss.flatten s' := by
  induction h with
  | nil s => exact ⟨rfl, .nil⟩
  | cons hq _ ih => exact ⟨ih.1.trans hq.1, .cons hq.2 ih.2⟩

theorem decls (s : Input) : Takes bound (decls bound) s fun ts ds s' =>
    Keeps s.procedures Decl.Derivations ts ds s' ∧ startsDecls s'.current = false := by
  refine last (many declList ?_) fun ts dss s' ⟨hc, hend⟩ => ⟨derivations_of_chain hc, hend⟩
  rintro _ _ _ _ ⟨_, h⟩
  cases h <;> simp

end Takes

theorem startsStatement_of_keyword {t : Token} {word : String} (h : t.isKeyword word = true)
    (hw : word ∈ statementWords) : startsStatement t = true := by
  obtain ⟨hk, rfl⟩ := Token.is_iff.mp h
  simp [startsStatement, hk, hw]

end Reader

open Reader (startsStatement startsDecls startsStatement_of_keyword statementWords)

theorem Reader.beginsPart_iff {t : Token} : BeginsPart t ↔ startsDecls t = true ∨ startsStatement t = true := by
  by_cases hk : t.kind = .keyword
  · simp [BeginsPart, partWords, startsDecls, startsStatement, statementWords, Token.isKeyword, Token.is, hk,
      or_assoc]
  · simp [BeginsPart, startsDecls, startsStatement, Token.isKeyword, Token.is, hk]

theorem Stmt.Derivation.starts {next : Option Token} {a : Stmt}
    (h : a.Derivation names next ts) : ∃ t us, ts = t :: us ∧ startsStatement t = true := by
  cases h with
  | assign hn | bareCall hn => exact ⟨_, _, rfl, by simp [startsStatement, hn]⟩
  | call hw | ifElse hw | whileDo hw | forTo hw | read hw | readOne hw | write hw | writeBare hw | group hw
  | procedure hw => exact ⟨_, _, rfl, startsStatement_of_keyword hw (by decide)⟩

def Stmt.isIf : Stmt → Bool
  | .ifElse .. => true
  | _ => false

/-- Statements start with the word `if` where the first of them is a conditional. -/
theorem Stmt.Derivations.not_if_iff {ss : List Stmt}
    (h : Stmt.Derivations names ts ss) :
    (∀ t ∈ ts.head?, t.isKeyword "if" = false) ↔ ss.head?.any Stmt.isIf = false := by
  cases h with
  | nil => simp
  | cons hs _ =>
    cases hs with
    | ifElse hw => simp [hw, Stmt.isIf]
    | assign hn | bareCall hn => simp [Token.isKeyword, Token.is, hn, Stmt.isIf]
    | call hw | whileDo hw | forTo hw | read hw | readOne hw | write hw | writeBare hw | group hw | procedure hw =>
      simp [Token.isKeyword, Token.is, Token.is_iff.mp hw, Stmt.isIf]

theorem Decl.Derivations.starts {t : Token} {ds : List Decl}
    (h : Decl.Derivations (t :: ts) ds) : startsDecls t = true ∧ ds ≠ [] := by
  generalize hus : t :: ts = us at h
  cases h with
  | nil => cases hus
  | cons h _ =>
    cases h with
    | const hw hd | var hw hd =>
      obtain ⟨rfl, -⟩ := List.cons.inj hus
      refine ⟨by simp [startsDecls, hw], ?_⟩
      cases hd <;> simp

theorem Decl.Derivations.eq_nil {ds : List Decl} (h : Decl.Derivations [] ds) : ds = [] := by
  generalize hus : [] = us at h
  cases h with
  | nil => rfl
  | cons h _ => cases h <;> cases hus

/-- A block starts with a declaration or a statement. -/
theorem Block.Derivation.starts {next : Option Token} {b : Block}
    (h : b.Derivation names next ts) :
    ∃ t us, ts = t :: us ∧ b.line = t.line ∧ (startsDecls t = true ∨ startsStatement t = true) := by
  cases h with
  | decls hd => exact ⟨_, _, rfl, rfl, .inl hd.starts.1⟩
  | @stmt _ _ t ts us _ _ hd hs ht =>
    cases ts with
    | nil =>
      obtain ⟨t', us', rfl, hstart⟩ := hs.starts
      obtain rfl : t' = t := by simpa using ht
      exact ⟨_, _, rfl, rfl, .inr hstart⟩
    | cons t' ts =>
      obtain rfl : t' = t := by simpa using ht
      exact ⟨_, _, rfl, rfl, .inl hd.starts.1⟩

theorem Block.Derivations.starts {bs : List Block}
    (h : Block.Derivations names ts bs) : ∃ t us, ts = t :: us ∧ BeginsPart t ∧ ∀ b ∈ bs.head?, b.line = t.line := by
  cases h with
  | last h | cons h =>
    obtain ⟨t, us, rfl, hline, ht⟩ := h.starts
    exact ⟨t, _, rfl, Reader.beginsPart_iff.mpr ht, by simpa using hline⟩

namespace Reader

variable {α β : Type} {bound : Nat} {s : Input} {s' : Input}

/-- A statement, and the names in sight behind it. -/
def StmtTaken (names : List String) (ts : List Token) (a : Stmt) (s' : Input) : Prop :=
  (∀ next, s'.Faces next → a.Derivation names next ts) ∧ s'.procedures = a.registered names

def StmtsTaken (names : List String) (ts : List Token) (as : List Stmt) (s' : Input) : Prop :=
  Stmt.Derivations names ts as ∧ s'.procedures = Stmt.registeredAll names as

def ElseIfTaken (names : List String) (ts : List Token) (e : ElseIf) (s' : Input) : Prop :=
  e.Derivation names ts ∧ s'.procedures = Stmt.registeredAll names e.body

def BlockTaken (names : List String) (ts : List Token) (b : Block) (s' : Input) : Prop :=
  (∀ next, s'.Faces next → b.Derivation names next ts) ∧ s'.procedures = b.registered names

theorem stmtsTaken_of_chain {as : List Stmt}
    (h : Chain (fun s ts a s' => s.rest = ts ++ s'.rest ∧ StmtTaken s.procedures ts a s') s ts as s') :
    s.rest = ts ++ s'.rest ∧ StmtsTaken s.procedures ts as s' := by
  induction h with
  | nil s => exact ⟨rfl, .nil, rfl⟩
  | cons hq _ ih =>
    obtain ⟨hts, hd, hn⟩ := hq
    obtain ⟨hus, hds, hns⟩ := ih
    refine ⟨by rw [hts, hus, List.append_assoc], .cons (hd _ (Input.faces_head hus)) (hn ▸ hds), ?_⟩
    rw [hns, hn, Stmt.registeredAll]

theorem elseIfsTaken_of_chain {es : List ElseIf}
    (h : Chain (fun s => ElseIfTaken s.procedures) s ts es s') :
    ElseIf.Derivations s.procedures ts es ∧ s'.procedures = ElseIf.registeredAll s.procedures es := by
  induction h with
  | nil s => exact ⟨.nil, rfl⟩
  | cons hq _ ih => exact ⟨.cons hq.1 (hq.2 ▸ ih.1), by rw [ih.2, hq.2, ElseIf.registeredAll_cons]⟩

namespace Takes

variable {S : List Token → β → Input → Prop}

theorem get {f : Input → Reader β} (h : Takes bound (f s) s S) : Takes bound (MonadState.get >>= f) s S := h

theorem modify {f : Input → Input} {g : PUnit → Reader β} (hf : (f s).rest = s.rest)
    (h : Takes bound (g ⟨⟩) (f s) S) : Takes bound (modify f >>= g) s S := by
  intro hb a s' hr
  obtain ⟨ts, hts, hn, hq⟩ := h (hf ▸ hb) a s' hr
  exact ⟨ts, hf ▸ hts, hn, hq⟩

theorem word {w : String} (hs : s.procedures = names) (hw : s.current.isKeyword w = true) :
    Takes bound Reader.advance s
      (Keeps names fun ts t => ts = [t] ∧ t = s.current ∧ t.isKeyword w = true) := by
  refine (advance (Token.kind_ne_eof_of_is hw (by decide))).mono ?_
  rintro _ _ _ ⟨rfl, rfl, rfl⟩
  exact ⟨hs, rfl, rfl, hw⟩

section

variable {stmt : Reader Stmt}
  (hstmt : ∀ s, startsStatement s.current = true → Takes bound stmt s (StmtTaken s.procedures))

include hstmt

theorem stmts (hs : s.procedures = names) : Takes bound (stmts bound stmt) s (StmtsTaken names) := by
  subst hs
  refine (many (fun s hm => (hstmt s hm).rest) ?_).mono fun ts as s' ⟨hc, _⟩ => (stmtsTaken_of_chain hc).2
  rintro _ _ _ _ ⟨-, h, -⟩
  obtain ⟨t, us, rfl, -⟩ := (h none Input.faces_none).starts
  simp

theorem elseIf (s : Input) (hm : (s.current.isKeyword "else" && s.next.isKeyword "if") = true) :
    Takes bound (elseIf bound stmt) s (ElseIfTaken s.procedures) := by
  obtain ⟨hw, hi⟩ := Bool.and_eq_true_iff.mp hm
  have hcur : s.advance.current = s.next :=
    Input.current_advance (Token.kind_ne_eof_of_is hw (by decide))
  refine (advance (Token.kind_ne_eof_of_is hw (by decide))).bind ?_
  rintro _ _ _ ⟨rfl, rfl, rfl⟩
  refine (word rfl (hcur ▸ hi)).discard.bind ?_
  rintro _ _ s2 ⟨next, h2, rfl, -, hn⟩
  refine (expr h2).bind fun cs cond s3 ⟨h3, hc⟩ => (keyword h3).discard.bind ?_
  rintro _ _ s4 ⟨thn, h4, rfl, ht⟩
  exact last (stmts hstmt h4) fun bs body s5 ⟨hb, h5⟩ => ⟨.mk hw hn hc ht hb, h5⟩

theorem elseIfs (hs : s.procedures = names) :
    Takes bound (Reader.many bound (fun s => s.current.isKeyword "else" && s.next.isKeyword "if")
      (Reader.elseIf bound stmt)) s fun ts es s' => ElseIf.Derivations names ts es ∧
        s'.procedures = ElseIf.registeredAll names es ∧
        (s'.current.isKeyword "else" && s'.next.isKeyword "if") = false := by
  subst hs
  refine (many (elseIf hstmt) ?_).mono fun ts es s' ⟨hc, hend⟩ => ?_
  · rintro _ _ _ _ ⟨h, _⟩
    cases h
    simp
  · obtain ⟨he, hn⟩ := elseIfsTaken_of_chain hc
    exact ⟨he, hn, hend⟩

theorem otherwise (hs : s.procedures = names)
    (hm : (s.current.isKeyword "else" && s.next.isKeyword "if") = false) :
    Takes bound (otherwise bound stmt) s fun ts o s' => Stmt.Last names ts o ∧
      s'.procedures = (o.map (Stmt.registeredAll names)).getD names := by
  refine current (ite (fun hw => ?_) fun _ => pure ⟨.absent, hs⟩)
  have hk : s.current.kind ≠ .eof := Token.kind_ne_eof_of_is hw (by decide)
  have hnext : s.next.isKeyword "if" = false := by simpa [hw] using hm
  refine (advance hk).discard.bind ?_
  rintro _ _ _ ⟨_, rfl, rfl, rfl⟩
  refine last (stmts hstmt (s := s.advance) hs).rest fun ts as s' ⟨hts, hd, h⟩ => ⟨.present hw ?_ hd, h⟩
  -- the branch starts with the token behind `else`
  intro t ht
  cases ts with
  | nil => cases ht
  | cons t' ts =>
    obtain rfl : t' = t := by simpa using ht
    rw [← Input.current_of_rest hts, Input.current_advance hk, hnext]

theorem ifStmt (hw : s.current.isKeyword "if" = true) :
    Takes bound (ifStmt bound stmt) s (StmtTaken s.procedures) := by
  refine (word rfl hw).bind ?_
  rintro _ _ s1 ⟨h1, rfl, rfl, -⟩
  refine (expr h1).bind fun cs cond s2 ⟨h2, hc⟩ => (keyword h2).discard.bind ?_
  rintro _ _ s3 ⟨thn, h3, rfl, ht⟩
  refine (stmts hstmt h3).bind fun bs body s4 ⟨hb, h4⟩ => ?_
  refine (elseIfs hstmt h4).bind fun es elseIfs s5 ⟨he, h5, hend⟩ => ?_
  refine (otherwise hstmt h5 hend).bind fun os o s6 ⟨ho, h6⟩ => (keyword h6).discard.bind ?_
  rintro _ _ s7 ⟨close, h7, rfl, hl⟩
  refine last (skipSemicolon h7) fun semi _ s8 ⟨h8, hs⟩ => ⟨fun next hn => .ifElse hw hc ht hb he ho hl (hs next hn).1, ?_⟩
  rw [h8, Stmt.registered_ifElse]

theorem whileStmt (hw : s.current.isKeyword "while" = true) :
    Takes bound (whileStmt bound stmt) s (StmtTaken s.procedures) := by
  refine (word rfl hw).bind ?_
  rintro _ _ s1 ⟨h1, rfl, rfl, -⟩
  refine (expr h1).bind fun cs cond s2 ⟨h2, hc⟩ => (keyword h2).discard.bind ?_
  rintro _ _ s3 ⟨start, h3, rfl, hd⟩
  refine (stmts hstmt h3).bind fun bs body s4 ⟨hb, h4⟩ => (keyword h4).discard.bind ?_
  rintro _ _ s5 ⟨close, h5, rfl, hl⟩
  exact last (skipSemicolon h5) fun semi _ s6 ⟨h6, hs⟩ => ⟨fun next hn => .whileDo hw hc hd hb hl (hs next hn).1, h6⟩

theorem forStmt (hw : s.current.isKeyword "for" = true) :
    Takes bound (forStmt bound stmt) s (StmtTaken s.procedures) := by
  refine (word rfl hw).bind ?_
  rintro _ _ s1 ⟨h1, rfl, rfl, -⟩
  refine (identifier h1).bind ?_
  rintro _ counter s2 ⟨h2, rfl, hn⟩
  refine (expect (by decide) h2).discard.bind ?_
  rintro _ _ s3 ⟨becomes, h3, rfl, -, ha⟩
  refine (expr h3).bind fun fs first s4 ⟨h4, hf⟩ => (keyword h4).discard.bind ?_
  rintro _ _ s5 ⟨upto, h5, rfl, ht⟩
  refine (expr h5).bind fun ls limit s6 ⟨h6, hm⟩ => (keyword h6).discard.bind ?_
  rintro _ _ s7 ⟨start, h7, rfl, hd⟩
  refine (stmts hstmt h7).bind fun bs body s8 ⟨hb, h8⟩ => (keyword h8).discard.bind ?_
  rintro _ _ s9 ⟨close, h9, rfl, hl⟩
  exact last (skipSemicolon h9) fun semi _ s10 ⟨h10, hs⟩ =>
    ⟨fun next hnext => .forTo hw hn ha hf ht hm hd hb hl (hs next hnext).1, h10⟩

theorem groupStmt (hw : s.current.isKeyword "begin" = true) :
    Takes bound (groupStmt bound stmt) s (StmtTaken s.procedures) := by
  refine (word rfl hw).bind ?_
  rintro _ _ s1 ⟨h1, rfl, rfl, -⟩
  refine (stmts hstmt h1).bind fun bs body s2 ⟨hb, h2⟩ => (keyword h2).discard.bind ?_
  rintro _ _ s3 ⟨close, h3, rfl, hl⟩
  exact last (skipSemicolon h3) fun semi _ s4 ⟨h4, hs⟩ => ⟨fun next hn => .group hw hb hl (hs next hn).1, h4⟩

theorem block (hs : s.procedures = names) : Takes bound (block bound stmt) s (BlockTaken names) := by
  -- the line is that of the first token, which the parts of the block do not know
  have hparts : Takes bound (Reader.block bound stmt) s fun ts b s' => ts ≠ [] ∧ b.line = s.current.line ∧
      (∀ t next, ts.head? = some t → s'.Faces next → Block.Derivation names next ts ⟨b.decls, b.stmt, t.line⟩) ∧
      s'.procedures = b.registered names := by
    refine current ((decls s).bind fun ts ds s1 ⟨⟨h1, hd⟩, hend⟩ => current (ite (fun hst => ?_) fun hst => ?_))
    · refine last (hstmt s1 hst) fun us a s2 ⟨ha, h2⟩ => ?_
      rw [h1, hs] at ha h2
      obtain ⟨t, us', rfl, -⟩ := (ha none Input.faces_none).starts
      exact ⟨by simp, rfl, fun t' next ht' hn => .stmt hd (ha next hn) ht', h2⟩
    · refine ite (fun _ => stop) fun hds => pure ?_
      rw [List.append_nil]
      cases ts with
      | nil => simp [hd.eq_nil] at hds
      | cons t ts =>
        refine ⟨by simp, rfl, fun t' next ht' hn => ?_, h1.trans hs⟩
        cases ht'
        refine .decls hd fun u hu => ?_
        rw [hn u hu, beginsPart_iff, hend]
        simpa using hst
  refine hparts.rest.mono fun ts b s' ⟨hts, hne, hline, hd, hn⟩ => ⟨fun next hnext => ?_, hn⟩
  obtain ⟨t, ts, rfl⟩ := List.exists_cons_of_ne_nil hne
  obtain ⟨ds, stmt, line⟩ := b
  obtain rfl : line = t.line := by rw [← Input.current_of_rest hts]; exact hline
  exact hd t next rfl hnext

theorem procedureStmt (hw : s.current.isKeyword "procedure" = true) :
    Takes bound (procedureStmt bound stmt) s (StmtTaken s.procedures) := by
  refine (word rfl hw).bind ?_
  rintro _ _ s1 ⟨h1, rfl, rfl, -⟩
  refine (identifier h1).bind ?_
  rintro _ name s2 ⟨h2, rfl, hn⟩
  refine modify rfl ((semicolon rfl).discard.bind ?_)
  rintro _ _ s3 ⟨semi, h3, rfl, hs⟩
  refine get ((block hstmt h3).bind fun bs body s4 ⟨hb, _⟩ => modify rfl ?_)
  rw [h2] at h3 hb
  refine last (skipSemicolon h3) fun last _ s5 ⟨h5, hl⟩ => ⟨fun next hnext => ?_, h5⟩
  obtain ⟨hl, hlast⟩ := hl next hnext
  have hd := Stmt.Derivation.procedure hw hn hs (hb _ hlast) hl
  exact hd

end

theorem assignOrCall (hk : s.current.kind = .identifier) :
    Takes bound (assignOrCall bound) s (StmtTaken s.procedures) := by
  have hne : s.current.kind ≠ .eof := by rw [hk]; decide
  refine get ((advance hne).bind ?_)
  rintro _ _ _ ⟨rfl, rfl, rfl⟩
  refine ite (fun ha => ?_) fun _ => ite (fun hm => ?_) fun _ => stop
  · rw [← Input.current_advance hne] at ha
    refine (advance (by rw [ha]; decide)).discard.bind ?_
    rintro _ _ _ ⟨_, rfl, rfl, rfl⟩
    refine (expr rfl).bind fun ts value s2 ⟨h2, hv⟩ => last (semicolon h2).discard ?_
    rintro _ _ s3 ⟨semi, h3, rfl, hs⟩
    exact ⟨fun _ _ => .assign hk ha hv hs, h3⟩
  · refine last (semicolon rfl).discard ?_
    rintro _ _ s2 ⟨semi, h2, rfl, hs⟩
    exact ⟨fun _ _ => .bareCall hk hm hs, h2⟩

theorem callStmt (hw : s.current.isKeyword "call" = true) :
    Takes bound callStmt s (StmtTaken s.procedures) := by
  refine (word rfl hw).bind ?_
  rintro _ _ s1 ⟨h1, rfl, rfl, -⟩
  refine (identifier h1).bind ?_
  rintro _ name s2 ⟨h2, rfl, hn⟩
  refine last (semicolon h2).discard ?_
  rintro _ _ s3 ⟨semi, h3, rfl, hs⟩
  exact ⟨fun _ _ => .call hw hn hs, h3⟩

theorem readStmt (hw : s.current.isKeyword "read" = true) :
    Takes bound (readStmt bound) s (StmtTaken s.procedures) := by
  refine (word rfl hw).bind ?_
  rintro _ _ s1 ⟨h1, rfl, rfl, -⟩
  refine current (ite (fun hl => ?_) fun _ => ?_)
  · refine (advance (Token.kind_ne_eof_of_is hl (by decide))).discard.bind ?_
    rintro _ _ _ ⟨_, rfl, rfl, rfl⟩
    refine (items (fun _ => identifier rfl) (s := s1.advance) h1).bind fun ts ids s2 ⟨h2, hi⟩ => ?_
    refine (closeParen h2).discard.bind ?_
    rintro _ _ s3 ⟨r, h3, rfl, hr⟩
    refine last (semicolon h3).discard ?_
    rintro _ _ s4 ⟨semi, h4, rfl, hs⟩
    have hnames : Listed Name ts (ids.map (·.text)) := hi.map fun _ _ ⟨hts, hk⟩ => hts ▸ .mk hk
    exact ⟨fun _ _ => .read hw hl hnames hr hs, h4⟩
  · refine (identifier h1).bind ?_
    rintro _ name s2 ⟨h2, rfl, hn⟩
    refine last (semicolon h2).discard ?_
    rintro _ _ s3 ⟨semi, h3, rfl, hs⟩
    exact ⟨fun _ _ => .readOne hw hn hs, h3⟩

theorem parenthesized (hs : s.procedures = names) :
    Takes bound (parenthesized bound) s (Keeps names fun ts values => ∃ l r us, ts = l :: (us ++ [r]) ∧
      l.is .parenthesis "(" = true ∧ Listed (Expr.Derivation .expression) us values ∧
      r.is .parenthesis ")" = true) := by
  refine (expectText (by decide) hs).discard.bind ?_
  rintro _ _ s1 ⟨l, h1, rfl, hl⟩
  refine (items (exprWithin bound) h1).bind fun us values s2 ⟨h2, hv⟩ => last (closeParen h2).discard ?_
  rintro _ _ s3 ⟨r, h3, rfl, hr⟩
  exact ⟨h3, l, r, us, rfl, hl, hv, hr⟩

theorem writeStmt (hw : s.current.isKeyword "write" = true) :
    Takes bound (writeStmt bound) s (StmtTaken s.procedures) := by
  refine (word rfl hw).bind ?_
  rintro _ _ s1 ⟨h1, rfl, rfl, -⟩
  have hbare : Takes bound (do
      let values ← Reader.items bound (Reader.expr bound)
      Functor.discard Reader.semicolon
      return Stmt.write values s.current.line) s1 fun us => StmtTaken s.procedures ([s.current] ++ us) := by
    refine (items (exprWithin bound) h1).bind fun ts values s2 ⟨h2, hv⟩ => last (semicolon h2).discard ?_
    rintro _ _ s3 ⟨semi, h3, rfl, hs⟩
    exact ⟨fun _ _ => .writeBare hw hv hs, h3⟩
  intro hb a s' h
  dsimp only at h
  split at h
  · split at h
    · next values s2 hp =>
      split at h
      · next hk =>
        cases h
        obtain ⟨_, hts, hne, h2, l, r, us, rfl, hl, hv, hr⟩ := parenthesized h1 hb values s2 hp
        have hsemi : s2.current.kind ≠ .eof := by rw [hk]; decide
        refine ⟨l :: (us ++ [r, s2.current]), ?_, ?_, fun _ _ => .write hw hl hv hr hk, h2⟩
        · rw [hts, Input.rest_of_current hsemi]
          simp
        · intro t ht
          have : t ∈ l :: (us ++ [r]) ∨ t = s2.current := by simpa [or_assoc] using ht
          exact this.elim (hne t) fun heq => heq ▸ hsemi
      · exact hbare hb a s' h
    · exact hbare hb a s' h
  · exact hbare hb a s' h

/-- The word of a statement decides how it is read. -/
theorem stmtWithin (n : Nat) (s : Input) (hst : startsStatement s.current = true) :
    Takes bound (stmtWithin bound n) s (StmtTaken s.procedures) := by
  induction n generalizing s with
  | zero => exact stop
  | succ n ih =>
    refine current (ite (fun hk => assignOrCall hk) fun hk => ?_)
    have hkey : s.current.kind = .keyword := by
      simp only [startsStatement, Bool.or_eq_true, Bool.and_eq_true, beq_iff_eq] at hst
      exact (hst.resolve_left hk).1
    have hword {w : String} (hw : s.current.text = w) : s.current.isKeyword w = true :=
      Token.is_iff.mpr ⟨hkey, hw⟩
    split
    · next hw => exact ifStmt ih (hword hw)
    · next hw => exact whileStmt ih (hword hw)
    · next hw => exact forStmt ih (hword hw)
    · next hw => exact readStmt (hword hw)
    · next hw => exact writeStmt (hword hw)
    · next hw => exact callStmt (hword hw)
    · next hw => exact groupStmt ih (hword hw)
    · next hw => exact procedureStmt ih (hword hw)
    · exact stop

end Takes

/-- A block, and what stood before and behind it. -/
def BlockRead (s : Input) (ts : List Token) (b : Block) (s' : Input) : Prop :=
  s.rest = ts ++ s'.rest ∧ BlockTaken s.procedures ts b s'

theorem derivations_of_chain {b : Block} {bs : List Block}
    (h : Chain BlockRead s ts (b :: bs) s') :
    s.rest = ts ++ s'.rest ∧ Block.Derivations s.procedures ts (b :: bs) := by
  induction bs generalizing s ts b with
  | nil =>
    cases h with
    | cons hq hr =>
      cases hr
      simpa using ⟨hq.1, .last (hq.2.1 none Input.faces_none)⟩
  | cons b' bs ih =>
    cases h with
    | cons hq hr =>
      obtain ⟨hts, hb, hn⟩ := hq
      obtain ⟨hus, hbs⟩ := ih hr
      exact ⟨by rw [hts, hus, List.append_assoc], .cons (hb _ (Input.faces_head hus)) (hn ▸ hbs)⟩

theorem takes_blocks (s : Input) : Takes bound (many bound (!endsBlocks ·.current) (block bound (stmt bound))) s
    fun ts bs s' => Chain BlockRead s ts bs s' ∧ (!endsBlocks s'.current) = false := by
  refine Takes.many (fun s _ => (Takes.block (Takes.stmtWithin bound) rfl).rest) ?_
  rintro s _ b s' ⟨_, hb, _⟩
  obtain ⟨t, us, rfl, -⟩ := (hb none Input.faces_none).starts
  simp

theorem current_of_expect {kind : TokenKind} {what : Expected} {t : Token}
    (h : expect kind what s = .ok (t, s')) : s.current.kind = kind := by
  obtain ⟨_, _, hcur, h⟩ := ok_of_bind h
  cases hcur
  split at h
  · assumption
  · cases h

/-- All tokens up to the end belong to the program. -/
theorem program_ok {p : Program} (h : program bound s = .ok (p, s')) (hb : s.rest.length < bound)
    (hs : s.procedures = []) : ∃ (ts : List Token) (last : Input), s.rest = ts ++ last.rest ∧
      (∀ t ∈ ts, t.kind ≠ .eof) ∧ last.current.kind = .eof ∧ p.Derivation ts := by
  obtain ⟨_, _, hcur, h⟩ := ok_of_bind h
  cases hcur
  obtain ⟨bs, s1, hbs, h⟩ := ok_of_bind h
  obtain ⟨ts, hts, hne, hc, -⟩ := takes_blocks s hb bs s1 hbs
  cases bs with
  | nil => cases h
  | cons b bs =>
    have hd : Block.Derivations [] ts (b :: bs) := hs ▸ (derivations_of_chain hc).2
    obtain ⟨t, us, rfl, -⟩ := hd.starts
    rw [Input.current_of_rest hts] at h
    obtain ⟨_, _, hcur, h⟩ := ok_of_bind h
    cases hcur
    split at h
    · next hk =>
      have hk' : s1.current.kind ≠ .eof := by rw [hk]; decide
      obtain ⟨_, s2, hadv, h⟩ := ok_of_bind h
      obtain ⟨_, ⟨⟩⟩ := ok_of_discard hadv
      obtain ⟨_, _, hexp, h⟩ := ok_of_bind h
      obtain ⟨_, hexp⟩ := ok_of_discard hexp
      cases h
      refine ⟨t :: us ++ [s1.current], s1.advance, ?_, ?_, current_of_expect hexp, .mk hd (.present hk)⟩
      · rw [hts, Input.rest_of_current hk']
        simp
      · intro x hx
        rcases List.mem_append.mp hx with hx | hx
        · exact hne x hx
        · rwa [List.mem_singleton.mp hx]
    · obtain ⟨_, _, hexp, h⟩ := ok_of_bind h
      obtain ⟨_, hexp⟩ := ok_of_discard hexp
      cases h
      refine ⟨t :: us, s1, hts, hne, current_of_expect hexp, ?_⟩
      simpa using Program.Derivation.mk hd (.absent nofun)

end Reader

theorem Input.takeWhile_of_current {s : Input} {tokens : List Token} (h : tokens = ts ++ s.rest)
    (hne : ∀ t ∈ ts, t.kind ≠ .eof) (hend : s.current.kind = .eof) :
    tokens.takeWhile (·.kind ≠ .eof) = ts := by
  rw [h, List.takeWhile_append_of_pos (by simpa using hne)]
  have hrest : s.rest.takeWhile (·.kind ≠ .eof) = [] := by
    cases hr : s.rest with
    | nil => rfl
    | cons t rest =>
      rw [Input.current_of_rest hr] at hend
      simp [hend]
  rw [hrest, List.append_nil]

namespace Program

theorem ofTokens_ok {tokens : List Token} {p : Program} (h : Program.ofTokens tokens = .ok p) :
    ∃ (ts : List Token) (last : Input), tokens = ts ++ last.rest ∧ (∀ t ∈ ts, t.kind ≠ .eof) ∧
      last.current.kind = .eof ∧ p.Derivation ts := by
  unfold Program.ofTokens at h
  cases hr : Reader.program (tokens.length + 1) ⟨tokens, (tokens.getLast?.map (·.line)).getD 1, []⟩ with
  | error e => rw [hr] at h; cases h
  | ok x =>
    obtain ⟨q, s'⟩ := x
    rw [hr] at h
    cases h
    exact Reader.program_ok hr (Nat.lt_succ_self _) rfl

/-- The tokens up to the end derive the program that they are read as. -/
theorem tokens_derive {tokens : List Token} {p : Program} (h : Program.ofTokens tokens = .ok p) :
    p.Derivation (tokens.takeWhile (·.kind ≠ .eof)) := by
  obtain ⟨ts, last, hts, hne, hend, hd⟩ := ofTokens_ok h
  rw [Input.takeWhile_of_current hts hne hend]
  exact hd

/-- A procedure called by its bare name in a guarded branch, and a written list that starts with a
parenthesis; what stands behind the end is not looked at. -/
theorem tokens_derive_bare_call : ∃ tokens p,
    tokens = (Scan.ofSource ("var x; procedure p; x := 1; ;\n" ++
      "if x then write (x) * 2, 3; else if 0 < x then p; endif.")).tokens ++ [⟨.comma, ",", 3⟩] ∧
    Program.ofTokens tokens = .ok p ∧ p.Derivation (tokens.takeWhile (·.kind ≠ .eof)) := by
  refine ⟨_, _, rfl, rfl, ?_⟩
  exact tokens_derive rfl

end Program

end PLZero
