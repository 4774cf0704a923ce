import PLZero.Proofs.Derived

/-! What follows the grammar is read: a reader takes the tokens of a derivation and leaves what stands behind
them, if that could not be read as more of the same and the bounds leave room for all tokens. -/

namespace PLZero

variable {names : List String} {ts rest : List Token}

open Grammar

namespace Reader

variable {α β : Type} {bound limit k n : Nat} {names' names'' : List String} {us : List Token}
  {P : Token → Prop} {t : Token} {e : Expr}

/-- `P` holds of the token in front, which is an end token if there is none. -/
def Ahead (P : Token → Prop) (rest : List Token) : Prop := ∀ line names, P (⟨rest, line, names⟩ : Input).current

theorem Ahead.cons (h : P t) : Ahead P (t :: us) := fun _ _ => h

theorem Ahead.imp {Q : Token → Prop} (h : Ahead P rest) (hPQ : ∀ {t}, P t → Q t) : Ahead Q rest :=
  fun line names => hPQ (h line names)

/-- With `ts` in front of `rest` and fewer than `limit` tokens in all, `r` takes `ts` and gives `a`. -/
def Accepts (limit : Nat) (r : Reader α) (names : List String) (ts rest : List Token) (a : α)
    (names' : List String) : Prop :=
  (ts ++ rest).length < limit → ∀ line, r ⟨ts ++ rest, line, names⟩ = .ok (a, ⟨rest, line, names'⟩)

theorem bind_of_ok {r : Reader α} {f : α → Reader β} {s s' : Input} {a : α} (h : r s = .ok (a, s')) :
    (r >>= f) s = f a s' := by
  simp only [Bind.bind, StateT.bind]
  rw [h]
  rfl

theorem discard_of_ok {r : Reader α} {s s' : Input} {a : α} (h : r s = .ok (a, s')) :
    (discard r : Reader PUnit) s = .ok (⟨⟩, s') := by
  simp only [Functor.discard, Functor.mapConst, StateT.map, Function.comp]
  rw [h]
  rfl

namespace Accepts

variable {r : Reader α} {f : α → Reader β} {a : α} {b : β}

theorem pure : Accepts limit (pure a : Reader α) names [] rest a names := fun _ _ => rfl

theorem bind (hr : Accepts limit r names ts (us ++ rest) a names')
    (hf : Accepts limit (f a) names' us rest b names'') :
    Accepts limit (r >>= f) names (ts ++ us) rest b names'' := by
  intro hl line
  rw [List.append_assoc] at hl ⊢
  rw [bind_of_ok (hr hl line)]
  refine hf ?_ line
  simp only [List.length_append] at hl ⊢
  omega

theorem bind_nil (hr : Accepts limit r names ts rest a names')
    (hf : Accepts limit (f a) names' [] rest b names'') : Accepts limit (r >>= f) names ts rest b names'' := by
  rw [← List.append_nil ts]
  exact bind hr hf

theorem last {g : α → β} (hr : Accepts limit r names ts rest a names') :
    Accepts limit (r >>= fun a => Pure.pure (g a)) names ts rest (g a) names' := by
  intro hl line
  rw [bind_of_ok (hr hl line)]
  rfl

theorem discard (hr : Accepts limit r names ts rest a names') :
    Accepts limit (discard r) names ts rest ⟨⟩ names' := fun hl line => discard_of_ok (hr hl line)

theorem current {f : Token → Reader β} (ht : (ts ++ rest).head? = some t)
    (h : Accepts limit (f t) names ts rest b names') :
    Accepts limit (Reader.current >>= f) names ts rest b names' := by
  intro hl line
  obtain ⟨us, hus⟩ := List.head?_eq_some_iff.mp ht
  have hread := h hl line
  rw [hus] at hread ⊢
  exact hread

theorem look {f : Token → Reader β} (hr : Ahead P rest)
    (h : ∀ t, P t → Accepts limit (f t) names [] rest b names') :
    Accepts limit (Reader.current >>= f) names [] rest b names' :=
  fun hl line => h _ (hr line names) hl line

theorem advance : Accepts limit Reader.advance names [t] rest t names := fun _ _ => rfl

theorem word {f : Token → Reader β} (h : Accepts k (f t) names us rest b names') :
    Accepts (k + 1) (Reader.advance >>= f) names (t :: us) rest b names' := by
  intro hl line
  have hadv : Reader.advance ⟨t :: us ++ rest, line, names⟩ = .ok (t, ⟨us ++ rest, line, names⟩) := rfl
  rw [bind_of_ok hadv]
  refine h ?_ line
  simp only [List.cons_append, List.length_cons] at hl
  omega

theorem skip {f : PUnit → Reader β} (h : Accepts k (f ⟨⟩) names us rest b names') :
    Accepts (k + 1) (Functor.discard Reader.advance >>= f) names (t :: us) rest b names' :=
  word (f := fun _ => f ⟨⟩) h

theorem get {f : Input → Reader β} (h : ∀ line, Accepts limit (f ⟨us ++ rest, line, names⟩) names us rest b names') :
    Accepts limit (MonadState.get >>= f) names us rest b names' :=
  fun hl line => h line hl line

theorem modify {f : Input → Input} {g : PUnit → Reader β}
    (hf : ∀ rest line, f ⟨rest, line, names⟩ = ⟨rest, line, names'⟩)
    (h : Accepts limit (g ⟨⟩) names' us rest b names'') :
    Accepts limit (modify f >>= g) names us rest b names'' := by
  intro hl line
  change g ⟨⟩ (f ⟨us ++ rest, line, names⟩) = _
  rw [hf]
  exact h hl line

theorem expect {kind : TokenKind} {what : Expected} (hk : t.kind = kind) :
    Accepts limit (expect kind what) names [t] rest t names := by
  refine current rfl ?_
  rw [if_pos hk]
  exact advance

theorem expectText {kind : TokenKind} {text : String} {what : Expected} (ht : t.is kind text = true) :
    Accepts limit (expectText kind text what) names [t] rest t names := by
  refine current rfl ?_
  rw [if_pos ht]
  exact advance

theorem number {v : Int32} (hk : t.kind = .number) (hv : Text.readWord t.text.toList = some v) :
    Accepts limit number names [t] rest v names := by
  intro hl line
  refine (bind_of_ok (expect hk hl line)).trans ?_
  rw [hv]
  rfl

end Accepts

/-- Items read one after the other, up to where no further one starts. -/
inductive Run (limit : Nat) (more : Input → Bool) (item : Reader α) :
    List String → List Token → List Token → List α → List String → Prop
  | nil {names : List String} {rest : List Token} (h : ∀ line, more ⟨rest, line, names⟩ = false) :
    Run limit more item names [] rest [] names
  | cons {names names' names'' : List String} {ts us rest : List Token} {a : α} {as : List α} (hne : ts ≠ [])
      (hm : ∀ line, more ⟨ts ++ (us ++ rest), line, names⟩ = true)
      (hi : Accepts limit item names ts (us ++ rest) a names')
      (hr : Run limit more item names' us rest as names'') :
    Run limit more item names (ts ++ us) rest (a :: as) names''

namespace Run

variable {more : Input → Bool} {item : Reader α} {as : List α}

theorem length_le (h : Run limit more item names ts rest as names') : as.length ≤ ts.length := by
  induction h with
  | nil => simp
  | cons hne _ _ _ ih =>
    have := List.length_pos_iff.mpr hne
    simp only [List.length_cons, List.length_append]
    omega

theorem manyBehind_succ (more : Input → Bool) (item : Reader α) (k : Nat) (read : Array α) (s : Input) :
    Reader.manyBehind more item (k + 1) read s =
      if more s then (item >>= fun a => Reader.manyBehind more item k (read.push a)) s else .ok (read, s) := by
  refine (?_ : (if more s then _ else _ : Reader (Array α)) s = _)
  split <;> rfl

theorem manyBehind (h : Run limit more item names ts rest as names') (read : Array α) (hk : as.length ≤ k) :
    Accepts limit (manyBehind more item k read) names ts rest (read ++ as) names' := by
  induction h generalizing k read with
  | nil h =>
    intro hl line
    cases k with
    | zero => simp [Reader.manyBehind]; rfl
    | succ k => simp [manyBehind_succ, h]
  | cons hne hm hi _ ih =>
    cases k with
    | zero => cases hk
    | succ k =>
      intro hl line
      rw [manyBehind_succ, List.append_assoc, if_pos (hm line), ← List.append_assoc]
      have hrest := hi.bind (f := fun a => Reader.manyBehind more item k (read.push a))
        (ih (read.push _) (Nat.le_of_succ_le_succ hk))
      simpa using hrest hl line

theorem many (h : Run limit more item names ts rest as names') (hb : limit ≤ bound) :
    Accepts limit (many bound more item) names ts rest as names' := by
  intro hl line
  have hcount : as.length ≤ bound := by
    have := h.length_le
    simp only [List.length_append] at hl
    omega
  refine (bind_of_ok (h.manyBehind #[] hcount hl line)).trans ?_
  have hread : ((#[] : Array α) ++ as).toList = as := by simp
  exact congrArg (fun l => Except.ok (l, _)) hread

end Run

namespace Accepts

/-- Neither an operator nor a comma: a list of expressions ends here. -/
def EndsList (t : Token) : Prop := t.kind ≠ .operator ∧ t.kind ≠ .comma

section

variable {R : List Token → α → Prop} {item : Reader α} {as : List α}
  (hi : ∀ ts a rest, R ts a → Ahead (·.kind ≠ .operator) rest → Accepts limit item names ts rest a names)

include hi

theorem run_of_listed (h : Listed R ts as) (hc : t.kind = .comma) (hr : Ahead EndsList rest) :
    Run limit (·.current.kind == .comma) (do
      Functor.discard Reader.advance
      item) names (t :: ts) rest as names := by
  have hend : Run limit (·.current.kind == .comma) (do
      Functor.discard Reader.advance
      item) names [] rest [] names := .nil fun line => by simpa using (hr line names).2
  induction h generalizing t with
  | @one ts a h =>
    rw [← List.append_nil (t :: ts)]
    refine .cons (by simp) (fun _ => by simpa using hc) ?_ hend
    exact bind advance.discard (hi ts a _ h (hr.imp And.left))
  | @cons ts us comma a as h hk _ ih =>
    rw [← List.cons_append]
    refine .cons (by simp) (fun _ => by simpa using hc) ?_ (ih hk)
    exact bind advance.discard (hi ts a _ h (.cons (by rw [hk]; decide)))

theorem items (h : Listed R ts as) (hb : limit ≤ bound) (hr : Ahead EndsList rest) :
    Accepts limit (items bound item) names ts rest as names := by
  cases h with
  | @one ts a h =>
    refine bind_nil (hi ts a _ h (hr.imp And.left)) (last ?_)
    exact Run.many (.nil fun line => by simpa using (hr line names).2) hb
  | @cons ts us comma a as h hk hrest =>
    refine bind (hi ts a _ h (.cons (by rw [hk]; decide))) (last ?_)
    exact Run.many (run_of_listed hi hrest hk hr) hb

end

end Accepts

theorem operatorAt_writes {op : BinOp} (h : t.Writes op) (level : Level) :
    operatorAt level t = if op.level = level then some op else none := by
  rw [operatorAt, if_pos h.1, h.2, BinOp.ofSymbol?_symbol]
  simp [Option.filter]

theorem operatorAt_eq_none (h : t.kind ≠ .operator) (level : Level) : operatorAt level t = none :=
  if_neg h

section

variable {level : Level} {operand : Reader Expr} {s : Input} {op : BinOp} (j : Nat) (l : Expr)

theorem chain_operator (h : operatorAt level s.current = some op) :
    chain level operand (j + 1) l s =
      (operand >>= fun r => chain level operand j (.binary op l r s.current.line)) s.advance := by
  have hlook : Reader.current s = .ok (s.current, s) := rfl
  rw [chain, bind_of_ok hlook, h]
  rfl

theorem chain_end (h : operatorAt level s.current = none) : chain level operand j l s = .ok (l, s) := by
  have hlook : Reader.current s = .ok (s.current, s) := rfl
  cases j with
  | zero => rfl
  | succ j =>
    rw [chain, bind_of_ok hlook, h]
    rfl

end

/-- Reading operands of one level has come past `ts`, with `e` to the left of what follows; of the bound on
the operators no more is used up than there are tokens. -/
def Continues (limit bound : Nat) (level : Level) (operand : Reader Expr) (ts rest : List Token) (e : Expr) :
    Prop :=
  (ts ++ rest).length < limit → ∀ line names, ∃ j, bound ≤ j + ts.length ∧
    chained bound level operand ⟨ts ++ rest, line, names⟩ = chain level operand j e ⟨rest, line, names⟩

namespace Continues

variable {level : Level} {operand : Reader Expr} {l r : Expr} {ls rs : List Token} {op : BinOp}

theorem first (h : ∀ names, Accepts limit operand names ts rest e names) :
    Continues limit bound level operand ts rest e :=
  fun hl line names => ⟨bound, by omega, bind_of_ok (h names hl line)⟩

theorem join (hl : Continues limit bound level operand ls (t :: (rs ++ rest)) l) (ht : t.Writes op)
    (hop : op.level = level) (hr : ∀ names, Accepts limit operand names rs rest r names) (hb : limit ≤ bound) :
    Continues limit bound level operand (ls ++ t :: rs) rest (.binary op l r t.line) := by
  intro hlen line names
  have hlen' : (ls ++ t :: (rs ++ rest)).length < limit := by simpa using hlen
  obtain ⟨j, hj, heq⟩ := hl hlen' line names
  simp only [List.length_append, List.length_cons] at hlen'
  obtain ⟨j, rfl⟩ : ∃ i, j = i + 1 := ⟨j - 1, by omega⟩
  refine ⟨j, by simp only [List.length_append, List.length_cons]; omega, ?_⟩
  have hright := hr names (by simp only [List.length_append]; omega) line
  have hoper : operatorAt level t = some op := by rw [operatorAt_writes ht, if_pos hop]
  rw [List.append_assoc, List.cons_append, heq, chain_operator _ _ hoper]
  exact bind_of_ok hright

theorem accepts (h : Continues limit bound level operand ts rest e)
    (hr : Ahead (operatorAt level · = none) rest) : Accepts limit (chained bound level operand) names ts rest e names := by
  intro hl line
  obtain ⟨j, -, heq⟩ := h hl line names
  rw [heq, chain_end _ _ (hr line names)]

end Continues

namespace Accepts

variable {inner : Reader Expr} {l r : Expr} {ls rs : List Token} {u : Token} {op : BinOp}

theorem factor_number {v : Int32} (hk : t.kind = .number) (hv : Text.readWord t.text.toList = some v) :
    Accepts limit (factor inner) names [t] rest (.literal v t.line) names := by
  refine current rfl ?_
  rw [hk]
  exact (number hk hv).last

theorem factor_name (hk : t.kind = .identifier) :
    Accepts limit (factor inner) names [t] rest (.ident t.text t.line) names := by
  refine current rfl ?_
  rw [hk]
  exact advance.discard.last

theorem factor_parens (ht : t.is .parenthesis "(") (h : Accepts k inner names ts (u :: rest) e names)
    (hu : u.is .parenthesis ")") : Accepts (k + 1) (factor inner) names (t :: (ts ++ [u])) rest e names := by
  obtain ⟨hk, htext⟩ := Token.is_iff.mp ht
  refine current rfl ?_
  rw [hk]
  simp only [htext, if_true]
  exact skip (bind h (expectText hu).discard.last)

theorem comparison_single (h : Accepts limit (sum bound inner) names ts rest e names)
    (hr : Ahead (operatorAt .relational · = none) rest) :
    Accepts limit (comparison bound inner) names ts rest e names := by
  refine bind_nil h (look hr fun t ht => ?_)
  rw [ht]
  exact pure

theorem comparison_pair (hl : Accepts limit (sum bound inner) names ls (t :: (rs ++ rest)) l names)
    (ht : operatorAt .relational t = some op) (hr : Accepts limit (sum bound inner) names rs rest r names) :
    Accepts limit (comparison bound inner) names (ls ++ t :: rs) rest (.binary op l r t.line) names := by
  refine bind hl (current rfl ?_)
  rw [ht]
  exact bind advance.discard hr.last

end Accepts

/-- What each tier of a derivation promises of its reader. -/
def ReadsBack (bound : Nat) : Tier → List Token → Expr → Prop
  | .factor, ts, e => ∀ k names rest, k < bound → Accepts (k + 1) (factor (exprWithin bound k)) names ts rest e names
  | .product, ts, e => ∀ k rest, k < bound →
    Continues (k + 1) bound .multiplicative (factor (exprWithin bound k)) ts rest e
  | .sum, ts, e => ∀ k rest, k < bound → Ahead (operatorAt .multiplicative · = none) rest →
    Continues (k + 1) bound .additive (chained bound .multiplicative (factor (exprWithin bound k))) ts rest e
  | .expression, ts, e => ∀ k names rest, k ≤ bound → Ahead (·.kind ≠ .operator) rest →
    Accepts k (exprWithin bound k) names ts rest e names

theorem readsBack_of_derivation {tier : Tier} (h : e.Derivation tier ts) : ReadsBack bound tier ts e := by
  have hop {t : Token} {op : BinOp} {us : List Token} (ht : t.Writes op) {level : Level} (hl : op.level ≠ level) :
      Ahead (operatorAt level · = none) (t :: us) := .cons (by rw [operatorAt_writes ht, if_neg hl])
  have hend {rest : List Token} (h : Ahead (·.kind ≠ .operator) rest) (level : Level) :
      Ahead (operatorAt level · = none) rest := h.imp (operatorAt_eq_none · level)
  induction h with
  | number hk hv => exact fun k names rest _ => .factor_number hk hv
  | name hk => exact fun k names rest _ => .factor_name hk
  | @parens l r ts e hl he hr ih =>
    intro k names rest hk
    have hinner : Accepts k (exprWithin bound k) names ts (r :: rest) e names :=
      ih k names _ (Nat.le_of_lt hk) (.cons (by rw [(Token.is_iff.mp hr).1]; decide))
    exact .factor_parens hl hinner hr
  | factor h ih => exact fun k rest hk => .first fun names => ih k names rest hk
  | multiply hl ht hlevel hr ihl ihr =>
    exact fun k rest hk => (ihl k _ hk).join ht hlevel (fun names => ihr k names rest hk) hk
  | product h ih => exact fun k rest hk hrest => .first fun names => (ih k rest hk).accepts hrest
  | @add t op ls rs l r hl ht hlevel hr ihl ihr =>
    intro k rest hk hrest
    have hleft := ihl k (t :: (rs ++ rest)) hk (hop ht (by rw [hlevel]; decide))
    exact hleft.join ht hlevel (fun names => (ihr k rest hk).accepts hrest) hk
  | sum h ih =>
    intro k names rest hk hrest
    cases k with
    | zero => exact fun hl => absurd hl (Nat.not_lt_zero _)
    | succ k =>
      exact .comparison_single ((ih k rest hk (hend hrest _)).accepts (hend hrest _)) (hend hrest _)
  | @compare t op ls rs l r hl ht hlevel hr ihl ihr =>
    intro k names rest hk hrest
    cases k with
    | zero => exact fun hl => absurd hl (Nat.not_lt_zero _)
    | succ k =>
      have hnone {level : Level} (h : .relational ≠ level) :
          Ahead (operatorAt level · = none) (t :: (rs ++ rest)) := hop ht (hlevel ▸ h)
      refine .comparison_pair ?_ (by rw [operatorAt_writes ht, if_pos hlevel]) ?_
      · exact (ihl k _ hk (hnone (by decide))).accepts (hnone (by decide))
      · exact (ihr k rest hk (hend hrest _)).accepts (hend hrest _)

/-- A derived expression is read, whatever bound leaves room for the tokens. -/
theorem Accepts.expr (h : e.Derivation .expression ts) (hb : limit ≤ bound)
    (hr : Ahead (·.kind ≠ .operator) rest) : Accepts limit (expr bound) names ts rest e names := by
  intro hl line
  exact readsBack_of_derivation h bound names rest (Nat.le_refl _) hr (Nat.lt_of_lt_of_le hl hb) line

/-- A token that stands in an expression or in a list of them. -/
def Plain (t : Token) : Prop := t.kind ≠ .keyword ∧ t.kind ≠ .semicolon

theorem plain_of_kind {kind : TokenKind} (h : t.kind = kind) (hk : kind ≠ .keyword ∧ kind ≠ .semicolon) :
    Plain t := by
  rw [Plain, h]
  exact hk

theorem plain_of_expr {tier : Tier} (h : e.Derivation tier ts) : ∀ t ∈ ts, Plain t := by
  induction h with
  | number hk | name hk => exact List.forall_mem_singleton.mpr (plain_of_kind hk (by decide))
  | parens hl _ hr ih =>
    have hclose := plain_of_kind (Token.is_iff.mp hr).1 (by decide)
    exact List.forall_mem_cons.mpr ⟨plain_of_kind (Token.is_iff.mp hl).1 (by decide),
      List.forall_mem_append.mpr ⟨ih, List.forall_mem_singleton.mpr hclose⟩⟩
  | factor _ ih | product _ ih | sum _ ih => exact ih
  | multiply _ ht _ _ ihl ihr | add _ ht _ _ ihl ihr | compare _ ht _ _ ihl ihr =>
    exact List.forall_mem_append.mpr ⟨ihl, List.forall_mem_cons.mpr ⟨plain_of_kind ht.1 (by decide), ihr⟩⟩

theorem plain_of_listed {R : List Token → α → Prop} {as : List α} (h : Listed R ts as)
    (hR : ∀ ts a, R ts a → ∀ t ∈ ts, Plain t) : ∀ t ∈ ts, Plain t := by
  induction h with
  | one h => exact hR _ _ h
  | cons h hc _ ih =>
    exact List.forall_mem_append.mpr ⟨hR _ _ h, List.forall_mem_cons.mpr ⟨plain_of_kind hc (by decide), ih⟩⟩

/-- Up to the first semicolon two token lists are the same. -/
theorem eq_of_semicolon {us' rest' : List Token} {semi semi' : Token} (h : ts ++ semi :: rest = us' ++ semi' :: rest')
    (hts : ∀ t ∈ ts, Plain t) (hus : ∀ t ∈ us', Plain t) (hs : semi.kind = .semicolon) (hs' : semi'.kind = .semicolon) :
    ts = us' := by
  have hpre {vs ws : List Token} {t : Token} (hvs : ∀ t ∈ vs, Plain t) (ht : t.kind = .semicolon) :
      (vs ++ t :: ws).takeWhile (·.kind ≠ .semicolon) = vs := by
    rw [List.takeWhile_append_of_pos (by simpa using fun t ht => (hvs t ht).2)]
    simp [ht]
  rw [← hpre hts hs, h, hpre hus hs']

/-- Nothing that was read before the token goes on with it. -/
def Ends (t : Token) : Prop := t.kind ≠ .semicolon ∧ ¬ BeginsPart t

/-- Behind a phrase stands the token that comes next, or one that ends the list which the phrase is part of. -/
def Behind (next : Option Token) (rest : List Token) : Prop :=
  (∀ t ∈ next, Ahead (· = t) rest) ∧ (next = none → Ahead Ends rest)

theorem Behind.head (hr : Ahead Ends rest) : Behind us.head? (us ++ rest) := by
  cases us with
  | nil => exact ⟨nofun, fun _ => hr⟩
  | cons t us =>
    refine ⟨fun u hu => ?_, nofun⟩
    cases hu
    exact .cons rfl

theorem Behind.ahead {next : Option Token} (h : Behind next rest) (hnext : ∀ t ∈ next, P t)
    (hends : ∀ {t}, Ends t → P t) : Ahead P rest := by
  cases next with
  | none => exact (h.2 rfl).imp hends
  | some t => exact (h.1 t rfl).imp fun heq => heq ▸ hnext t rfl

theorem Ahead.keyword {word : String} (h : t.isKeyword word = true) :
    Ahead (·.kind ≠ .operator) (t :: us) := .cons (by rw [(Token.is_iff.mp h).1]; decide)

theorem Ahead.ends {word : String} (h : t.isKeyword word = true) (hw : word ∉ partWords) :
    Ahead Ends (t :: us) := by
  obtain ⟨hk, rfl⟩ := Token.is_iff.mp h
  exact .cons ⟨by rw [hk]; decide, by simp [BeginsPart, hk, hw]⟩

theorem Ends.starts (h : Ends t) : startsDecls t = false ∧ startsStatement t = false := by
  simpa [beginsPart_iff] using h.2

namespace Accepts

variable {stmt : Reader Stmt} {name becomes word thn close semi l r : Token} {next : Option Token}
  {cs bs : List Token} {cond value : Expr} {body : List Stmt} {a : Stmt} {ds : List Decl}

theorem skipSemicolon (hs : Optional .semicolon next ts) (hr : Behind next rest) :
    Accepts limit skipSemicolon names ts rest ⟨⟩ names := by
  cases hs with
  | absent h =>
    refine look (hr.ahead h And.left) fun t ht => ?_
    rw [if_neg ht]
    exact pure
  | present h =>
    refine current rfl ?_
    rw [if_pos h]
    exact advance.discard

theorem closing {word : String} {a : α} (hl : close.isKeyword word) (hs : Optional .semicolon next ts)
    (hr : Behind next rest) : Accepts limit (do
      Functor.discard (keyword word)
      Reader.skipSemicolon
      return a) names (close :: ts) rest a names :=
  bind (expectText hl).discard (skipSemicolon hs hr).last

theorem dispatch {word : String} (reader : Reader Stmt) (hw : t.isKeyword word = true)
    (h : ∀ n us line names, stmtWith bound stmt ⟨⟨.keyword, word, n⟩ :: us, line, names⟩ =
      reader ⟨⟨.keyword, word, n⟩ :: us, line, names⟩)
    (ha : Accepts limit reader names (t :: ts) rest a names') :
    Accepts limit (stmtWith bound stmt) names (t :: ts) rest a names' := by
  obtain ⟨kind, text, n⟩ := t
  obtain ⟨rfl, rfl⟩ := Token.is_iff.mp hw
  exact fun hl line => (h n _ line names).trans (ha hl line)

theorem dispatch_name (hn : t.kind = .identifier)
    (ha : Accepts limit (assignOrCall bound) names (t :: ts) rest a names') :
    Accepts limit (stmtWith bound stmt) names (t :: ts) rest a names' := by
  refine current rfl ?_
  rw [if_pos hn]
  exact ha

theorem assign (hb : becomes.kind = .assign) (hs : semi.kind = .semicolon)
    (hv : Accepts k (Reader.expr bound) names ts (semi :: rest) value names) :
    Accepts (k + 1) (assignOrCall bound) names (name :: becomes :: (ts ++ [semi])) rest
      (.assign name.text value name.line) names := by
  refine get fun line => Accepts.word ?_
  have hnext : (⟨name :: becomes :: (ts ++ [semi]) ++ rest, line, names⟩ : Input).next.kind = .assign := hb
  rw [if_pos hnext]
  exact bind advance.discard (bind hv (expect hs).discard.last)

theorem bareCall (hm : name.text ∈ names) (hs : semi.kind = .semicolon) :
    Accepts (k + 1) (assignOrCall bound) names [name, semi] rest (.call name.text name.line) names := by
  refine get fun line => Accepts.word ?_
  have hnext : (⟨[name, semi] ++ rest, line, names⟩ : Input).next.kind ≠ .assign := fun h => by
    cases hs.symm.trans h
  rw [if_neg hnext, if_pos hm]
  exact (expect hs).discard.last

theorem elseIf (ht : thn.isKeyword "then")
    (hc : Accepts limit (Reader.expr bound) names cs (thn :: bs ++ rest) cond names)
    (hb : Accepts limit (stmts bound stmt) names bs rest body names') :
    Accepts limit (Reader.elseIf bound stmt) names (word :: t :: (cs ++ thn :: bs)) rest ⟨cond, body, word.line⟩
      names' :=
  bind advance (bind advance.discard (bind hc (bind (expectText ht).discard hb.last)))

theorem listed_tokens {ids : List String} (h : Listed Name ts ids) :
    ∃ toks : List Token, Listed (fun ts t => ts = [t] ∧ t.kind = .identifier) ts toks ∧ toks.map (·.text) = ids := by
  induction h with
  | one h =>
    cases h with
    | mk hk => exact ⟨_, .one ⟨rfl, hk⟩, rfl⟩
  | cons h hc _ ih =>
    obtain ⟨toks, htoks, rfl⟩ := ih
    cases h with
    | mk hk => exact ⟨_, .cons ⟨rfl, hk⟩ hc htoks, rfl⟩

theorem readStmt {ids : List String} (hl : l.is .parenthesis "(") (hi : Listed Name ts ids)
    (hr : r.is .parenthesis ")") (hs : semi.kind = .semicolon) (hb : k ≤ bound) :
    Accepts (k + 1) (readStmt bound) names (word :: l :: (ts ++ [r, semi])) rest (.read ids word.line) names := by
  obtain ⟨toks, htoks, rfl⟩ := listed_tokens hi
  refine Accepts.word (current rfl ?_)
  rw [if_pos hl]
  refine bind advance.discard (bind (items ?_ htoks hb (.cons ?_))
    (bind (expectText hr).discard (expect hs).discard.last))
  · rintro _ t rest ⟨rfl, ht⟩ _
    exact expect ht
  · simp [EndsList, (Token.is_iff.mp hr).1]

theorem readOne (hn : name.kind = .identifier) (hs : semi.kind = .semicolon) :
    Accepts (k + 1) (Reader.readStmt bound) names [word, name, semi] rest (.read [name.text] word.line) names := by
  refine Accepts.word (current rfl ?_)
  rw [if_neg (by simp [Token.is, hn])]
  exact bind (expect hn) (expect hs).discard.last

section

variable {values : List Expr}

theorem exprs (hv : Listed (Expr.Derivation .expression) ts values) (hb : limit ≤ bound) (hr : Ahead EndsList rest) :
    Accepts limit (Reader.items bound (Reader.expr bound)) names ts rest values names :=
  items (fun _ _ _ h hr => expr h hb hr) hv hb hr

theorem parenthesized (hl : l.is .parenthesis "(") (hv : Listed (Expr.Derivation .expression) ts values)
    (hr : r.is .parenthesis ")") (hb : limit ≤ bound) :
    Accepts limit (parenthesized bound) names (l :: (ts ++ [r])) rest values names := by
  refine bind (expectText hl).discard (bind (exprs hv hb (.cons ?_)) (expectText hr).discard.last)
  simp [EndsList, (Token.is_iff.mp hr).1]

theorem writeStmt (hl : l.is .parenthesis "(") (hv : Listed (Expr.Derivation .expression) ts values)
    (hr : r.is .parenthesis ")") (hs : semi.kind = .semicolon) (hb : k ≤ bound) :
    Accepts (k + 1) (writeStmt bound) names (word :: l :: (ts ++ [r, semi])) rest (.write values word.line) names := by
  refine Accepts.word fun hlen line => ?_
  have hlist : l :: (ts ++ [r, semi]) ++ rest = l :: (ts ++ [r]) ++ semi :: rest := by simp
  rw [hlist] at hlen ⊢
  have hp : Reader.parenthesized bound ⟨l :: (ts ++ [r]) ++ semi :: rest, line, names⟩ =
      .ok (values, ⟨semi :: rest, line, names⟩) := parenthesized hl hv hr hb hlen line
  have hcur : (⟨l :: (ts ++ [r]) ++ semi :: rest, line, names⟩ : Input).current.is .parenthesis "(" = true := hl
  rw [if_pos hcur, hp]
  exact if_pos hs

/-- A list of several values in parentheses is not the start of bare values. -/
theorem items_ne_ok {line : Nat} {s : Input} (hl : l.is .parenthesis "(") (he : value.Derivation .expression ts)
    (hc : t.kind = .comma) (hlen : (ts ++ t :: rest).length < n) :
    Reader.items (n + 1) (Reader.expr (n + 1)) ⟨l :: (ts ++ t :: rest), line, names⟩ ≠ .ok (values, s) := by
  intro h
  -- the first value begins with an operand, here with one in parentheses
  obtain ⟨_, _, h, -⟩ := ok_of_bind h
  obtain ⟨_, _, h, -⟩ := ok_of_bind h
  obtain ⟨_, _, h, -⟩ := ok_of_bind h
  obtain ⟨_, _, h, -⟩ := ok_of_bind h
  have hlook : Reader.current ⟨l :: (ts ++ t :: rest), line, names⟩ = .ok (l, ⟨l :: (ts ++ t :: rest), line, names⟩) :=
    rfl
  have hinner : Reader.exprWithin (n + 1) n ⟨ts ++ t :: rest, line, names⟩ = .ok (value, ⟨t :: rest, line, names⟩) :=
    readsBack_of_derivation he n names _ (Nat.le_succ n) (.cons (by rw [hc]; decide)) hlen line
  obtain ⟨hk, htext⟩ := Token.is_iff.mp hl
  rw [factor, bind_of_ok hlook, hk] at h
  simp only [htext, if_true] at h
  obtain ⟨_, _, hadvance, h⟩ := ok_of_bind h
  cases hadvance
  obtain ⟨_, _, hvalue, h⟩ := ok_of_bind h
  cases hinner.symm.trans hvalue
  obtain ⟨_, _, hclose, -⟩ := ok_of_bind h
  obtain ⟨_, hclose⟩ := ok_of_discard hclose
  obtain ⟨_, _, hcur, hclose⟩ := ok_of_bind hclose
  cases hcur
  rw [if_neg (by simp [Token.is, hc])] at hclose
  cases hclose

/-- Where bare values are one list in parentheses, that is a list of the same values. -/
theorem parenthesized_bare {values' : List Expr} {s : Input} {line : Nat}
    (hv : Listed (Expr.Derivation .expression) ts values) (hs : semi.kind = .semicolon)
    (hlen : (ts ++ semi :: rest).length < bound)
    (hp : Reader.parenthesized bound ⟨ts ++ semi :: rest, line, names⟩ = .ok (values', s))
    (hk : s.current.kind = .semicolon) : values' = values ∧ s = ⟨semi :: rest, line, names⟩ := by
  have hend : Ahead EndsList (semi :: rest) := .cons (by simp [EndsList, hs])
  have hread (vs : List Expr) (h : Listed (Expr.Derivation .expression) ts vs) :
      Reader.items bound (Reader.expr bound) ⟨ts ++ semi :: rest, line, names⟩ = .ok (vs, ⟨semi :: rest, line, names⟩) :=
    exprs h (Nat.le_refl _) hend hlen line
  obtain ⟨us, hus, -, -, l, r, vs, rfl, hl, hv', hr⟩ := Takes.parenthesized rfl hlen _ _ hp
  obtain rfl : ts = l :: (vs ++ [r]) := by
    have hclose := plain_of_kind (Token.is_iff.mp hr).1 (by decide)
    have hsemi : s.rest = s.current :: s.advance.rest := Input.rest_of_current (by rw [hk]; decide)
    rw [hsemi] at hus
    refine eq_of_semicolon hus (plain_of_listed hv fun _ _ h => plain_of_expr h) ?_ hs hk
    exact List.forall_mem_cons.mpr ⟨plain_of_kind (Token.is_iff.mp hl).1 (by decide),
      List.forall_mem_append.mpr ⟨plain_of_listed hv' fun _ _ h => plain_of_expr h, by simpa using hclose⟩⟩
  cases hp.symm.trans (parenthesized hl hv' hr (Nat.le_refl _) hlen line)
  refine ⟨?_, rfl⟩
  cases hv' with
  | one he =>
    cases (hread _ hv).symm.trans (hread _ (.one (.sum (.product (.factor (.parens hl he hr))))))
    rfl
  | cons he hc =>
    cases bound with
    | zero => cases hlen
    | succ n =>
      have hok := hread _ hv
      simp only [List.append_assoc, List.cons_append, List.length_cons] at hok hlen
      exact absurd hok (items_ne_ok hl he hc (Nat.lt_of_succ_lt_succ hlen))

theorem writeBare (hv : Listed (Expr.Derivation .expression) ts values) (hs : semi.kind = .semicolon) (hb : k ≤ bound) :
    Accepts (k + 1) (Reader.writeStmt bound) names (word :: (ts ++ [semi])) rest (.write values word.line) names := by
  refine Accepts.word fun hlen line => ?_
  have hbare : Accepts k (do
      let values ← Reader.items bound (Reader.expr bound)
      Functor.discard semicolon
      return Stmt.write values word.line) names (ts ++ [semi]) rest (.write values word.line) names :=
    bind (exprs hv hb (.cons (by simp [EndsList, hs]))) (expect hs).discard.last
  have hlist := hbare hlen line
  rw [List.append_assoc] at hlen hlist ⊢
  split
  · split
    · next values' s hp =>
      split
      · next hk =>
        obtain ⟨rfl, rfl⟩ := parenthesized_bare hv hs (Nat.lt_of_lt_of_le hlen hb) hp hk
        rfl
      · exact hlist
    · exact hlist
  · exact hlist

end

theorem initial {i : Initial} (h : i.Derivation t) : Accepts limit initial names [t] rest i names := by
  refine current rfl ?_
  cases h with
  | number hk hv =>
    rw [if_neg (by rw [hk]; decide)]
    exact (number hk hv).last
  | constant hk =>
    rw [if_pos hk]
    exact advance.last

theorem constItem {d : Decl} (h : Decl.Constant ts d) : Accepts limit constItem names ts rest d names := by
  obtain ⟨hn, he, hi⟩ := h
  exact bind (expect hn) (bind (expectText (Token.is_iff.mpr he)).discard (initial hi).last)

theorem varItem {d : Decl} (h : Decl.Variable ts d) (hr : Ahead (·.kind ≠ .operator) rest) :
    Accepts limit varItem names ts rest d names := by
  cases h with
  | @plain name hn =>
    refine bind_nil (expect hn) (look hr fun t ht => ?_)
    rw [if_neg fun h => ht (Token.is_iff.mp h).1]
    exact pure
  | @initial name eq t i hn he hi =>
    have heq : eq.is .operator "=" = true := Token.is_iff.mpr he
    refine bind (expect hn) (current rfl ?_)
    rw [if_pos heq]
    exact bind advance.discard (initial hi).last

theorem declList (h : Decl.Section ts ds) (hb : limit ≤ bound) :
    Accepts limit (declList bound) names ts rest ds names := by
  have hend {semi : Token} (hs : semi.kind = .semicolon) {us : List Token} : Ahead EndsList (semi :: us) :=
    .cons (by simp [EndsList, hs])
  cases h with
  | const hw hd hs =>
    refine bind advance ?_
    simp only [hw, if_true]
    exact bind (items (fun _ _ _ h _ => constItem h) hd hb (hend hs)) (expect hs).discard.last
  | @var word semi ts ds hw hd hs =>
    have hconst : word.isKeyword "const" = false := by
      rw [Token.isKeyword, Token.is, (Token.is_iff.mp hw).1, (Token.is_iff.mp hw).2]
      rfl
    refine bind advance ?_
    simp only [hconst, if_false, Bool.false_eq_true]
    exact bind (items (fun _ _ _ h hr => varItem h hr) hd hb (hend hs)) (expect hs).discard.last

theorem run_of_derivations (h : Decl.Derivations ts ds) (hb : limit ≤ bound)
    (hr : Ahead (startsDecls · = false) rest) :
    ∃ dss, dss.flatten = ds ∧ Run limit (startsDecls ·.current) (Reader.declList bound) names ts rest dss names := by
  induction h with
  | nil => exact ⟨[], rfl, .nil fun line => hr line names⟩
  | cons h _ ih =>
    obtain ⟨dss, rfl, hrun⟩ := ih
    refine ⟨_ :: dss, rfl, .cons ?_ (fun line => ?_) (declList h hb) hrun⟩
    · cases h <;> simp
    · cases h with
      | const hw | var hw => simp [startsDecls, hw]

theorem decls {ds : List Decl} (h : Decl.Derivations ts ds) (hb : limit ≤ bound)
    (hr : Ahead (startsDecls · = false) rest) : Accepts limit (decls bound) names ts rest ds names := by
  obtain ⟨dss, rfl, hrun⟩ := run_of_derivations h hb hr
  exact (hrun.many hb).last

theorem startsDecls_eq_false (h : startsStatement t = true) : startsDecls t = false := by
  rw [Bool.eq_false_iff]
  intro hd
  rcases Bool.or_eq_true_iff.mp hd with hw | hw <;> obtain ⟨hk, htext⟩ := Token.is_iff.mp hw <;>
    simp [startsStatement, statementWords, hk, htext] at h

theorem block_stmt (hd : Decl.Derivations ts ds) (hb : limit ≤ bound)
    (ht : (ts ++ us).head? = some t) (hs : Accepts limit stmt names us rest a names')
    (hus : ∃ u vs, us = u :: vs ∧ startsStatement u = true) :
    Accepts limit (block bound stmt) names (ts ++ us) rest ⟨ds, some a, t.line⟩ names' := by
  obtain ⟨u, vs, rfl, hu⟩ := hus
  have ht' : (ts ++ u :: vs ++ rest).head? = some t := by rw [List.head?_append, ht]; rfl
  refine current ht' (bind (decls hd hb (.cons (startsDecls_eq_false hu))) (current rfl ?_))
  rw [if_pos hu]
  exact hs.last

theorem block_decls (hd : Decl.Derivations (t :: ts) ds) (hb : limit ≤ bound)
    (hr : Ahead (fun t => startsDecls t = false ∧ startsStatement t = false) rest) :
    Accepts limit (block bound stmt) names (t :: ts) rest ⟨ds, none, t.line⟩ names := by
  refine current rfl (bind_nil (decls hd hb (hr.imp And.left)) (look hr fun u hu => ?_))
  rw [if_neg (by simp [hu.2]), if_neg (by simpa using hd.starts.2)]
  exact pure

theorem procedureStmt {body : Block} (hn : name.kind = .identifier) (hs : semi.kind = .semicolon)
    (hb : Accepts k (block bound stmt) (name.text :: names) bs (ts ++ rest) body names')
    (hl : Accepts k Reader.skipSemicolon (name.text :: names) ts rest ⟨⟩ (name.text :: names)) :
    Accepts (k + 1) (procedureStmt bound stmt) names (word :: name :: semi :: (bs ++ ts)) rest
      (.procedure name.text body word.line) (name.text :: names) := by
  refine Accepts.word (bind (expect hn) (modify ?_ (bind (expect hs).discard
    (get fun line => bind hb (modify ?_ hl.last)))))
  · exact fun _ _ => rfl
  · exact fun _ _ => rfl

end Accepts

end Reader

open Reader

theorem ElseIf.Derivations.ahead {es : List ElseIf}
    (h : ElseIf.Derivations names ts es) (hr : Ahead Ends rest) : Ahead Ends (ts ++ rest) := by
  cases h with
  | nil => exact hr
  | cons h =>
    cases h with
    | mk hw => exact .ends hw (by decide)

theorem Stmt.Last.ahead {o : Option (List Stmt)}
    (h : Stmt.Last names ts o) (hr : Ahead Ends rest) : Ahead Ends (ts ++ rest) := by
  cases h with
  | absent => exact hr
  | present hw => exact .ends hw (by decide)

theorem Stmt.Last.no_elseIf {names' : List String} {o : Option (List Stmt)} {close : Token}
    (h : Stmt.Last names ts o) (hl : close.isKeyword "endif" = true) (line : Nat) :
    ((⟨ts ++ close :: rest, line, names'⟩ : Input).current.isKeyword "else" &&
      (⟨ts ++ close :: rest, line, names'⟩ : Input).next.isKeyword "if") = false := by
  obtain ⟨hkind, htext⟩ := Token.is_iff.mp hl
  have hclose (w : String) (hw : "endif" ≠ w) : close.isKeyword w = false := by
    simp [Token.isKeyword, Token.is, hkind, htext, hw]
  cases h with
  | absent => simp [hclose "else" (by decide)]
  | @present _ _ ts _ hw hn =>
    rw [Bool.and_eq_false_iff]
    right
    cases ts with
    | nil => exact hclose "if" (by decide)
    | cons t ts => exact hn t rfl

mutual

/-- What derives a statement is read as that statement. -/
theorem Stmt.Derivation.accepted {names : List String} {next : Option Token} {ts rest : List Token} {s : Stmt}
    (h : s.Derivation names next ts) (hr : Behind next rest) {bound k : Nat} (hk : k ≤ bound) :
    Accepts k (stmtWithin bound k) names ts rest s (s.registered names) := by
  cases k with
  | zero => exact fun hl => absurd hl (Nat.not_lt_zero _)
  | succ k =>
    -- the first token is taken before any inner statement is read, so one unit less of nesting is enough
    have hk' : k ≤ bound := Nat.le_of_succ_le hk
    cases h with
    | assign hn hb hv hs => exact .dispatch_name hn (.assign hb hs (.expr hv hk' (.cons (by rw [hs]; decide))))
    | bareCall hn hm hs => exact .dispatch_name hn (.bareCall hm hs)
    | call hw hn hs =>
      exact .dispatch callStmt hw (fun _ _ _ _ => rfl) (.word (.bind (.expect hn) (.last (.discard (.expect hs)))))
    | ifElse hw hc ht hb he ho hl hs =>
      rw [Stmt.registered_ifElse]
      refine .dispatch (ifStmt bound _) hw (fun _ _ _ _ => rfl) (.word (.bind (.expr hc hk' (.keyword ht))
        (.bind (.discard (.expectText ht)) (.bind ((Stmt.Derivations.accepted hb ?_ hk').many hk')
          (.bind ((ElseIf.Derivations.accepted he ?_ ?_ hk').many hk')
            (.bind (Stmt.Last.accepted ho hl hk') (.closing hl hs hr)))))))
      · simp only [List.append_assoc]
        exact he.ahead (ho.ahead (.ends hl (by decide)))
      · simp only [List.append_assoc]
        exact ho.ahead (.ends hl (by decide))
      · simp only [List.append_assoc]
        exact ho.no_elseIf hl
    | whileDo hw hc hd hb hl hs =>
      exact .dispatch (whileStmt bound _) hw (fun _ _ _ _ => rfl) (.word (.bind (.expr hc hk' (.keyword hd))
        (.bind (.discard (.expectText hd)) (.bind
          ((Stmt.Derivations.accepted hb (.ends hl (by decide)) hk').many hk') (.closing hl hs hr)))))
    | forTo hw hn ha hf ht hm hd hb hl hs =>
      exact .dispatch (forStmt bound _) hw (fun _ _ _ _ => rfl) (.word (.bind (.expect hn) (.bind (.discard (.expect ha))
        (.bind (.expr hf hk' (.keyword ht)) (.bind (.discard (.expectText ht)) (.bind (.expr hm hk' (.keyword hd))
          (.bind (.discard (.expectText hd)) (.bind
            ((Stmt.Derivations.accepted hb (.ends hl (by decide)) hk').many hk') (.closing hl hs hr)))))))))
    | read hw hl hi hr hs => exact .dispatch (readStmt bound) hw (fun _ _ _ _ => rfl) (.readStmt hl hi hr hs hk')
    | readOne hw hn hs => exact .dispatch (readStmt bound) hw (fun _ _ _ _ => rfl) (.readOne hn hs)
    | write hw hl hv hr hs => exact .dispatch (writeStmt bound) hw (fun _ _ _ _ => rfl) (.writeStmt hl hv hr hs hk')
    | writeBare hw hv hs => exact .dispatch (writeStmt bound) hw (fun _ _ _ _ => rfl) (.writeBare hv hs hk')
    | group hw hb hl hs =>
      exact .dispatch (groupStmt bound _) hw (fun _ _ _ _ => rfl) (.word (.bind
        ((Stmt.Derivations.accepted hb (.ends hl (by decide)) hk').many hk') (.closing hl hs hr)))
    | procedure hw hn hs hb hl =>
      refine .dispatch (procedureStmt bound _) hw (fun _ _ _ _ => rfl) (.procedureStmt hn hs
        (Block.Derivation.accepted hb ?_ hk') (.skipSemicolon hl hr))
      cases hl with
      | absent => exact hr
      | present => exact ⟨fun t ht => by cases ht; exact .cons rfl, nofun⟩

theorem Stmt.Derivations.accepted {names : List String} {ts rest : List Token} {ss : List Stmt}
    (h : Stmt.Derivations names ts ss) (hr : Ahead Ends rest) {bound k : Nat} (hk : k ≤ bound) :
    Run k (startsStatement ·.current) (stmtWithin bound k) names ts rest ss (Stmt.registeredAll names ss) := by
  cases h with
  | nil => exact .nil fun line => (hr line names).starts.2
  | cons h hs =>
    obtain ⟨t, us, rfl, ht⟩ := h.starts
    exact .cons (by simp) (fun _ => ht) (Stmt.Derivation.accepted h (.head hr) hk)
      (Stmt.Derivations.accepted hs hr hk)

theorem ElseIf.Derivations.accepted {names : List String} {ts rest : List Token} {es : List ElseIf}
    (h : ElseIf.Derivations names ts es) (hr : Ahead Ends rest)
    (hn : ∀ {names} line, ((⟨rest, line, names⟩ : Input).current.isKeyword "else" &&
      (⟨rest, line, names⟩ : Input).next.isKeyword "if") = false) {bound k : Nat} (hk : k ≤ bound) :
    Run k (fun s => s.current.isKeyword "else" && s.next.isKeyword "if") (elseIf bound (stmtWithin bound k)) names
      ts rest es (ElseIf.registeredAll names es) := by
  cases h with
  | nil => exact .nil hn
  | cons h hs =>
    cases h with
    | mk hw hi hc ht hb =>
      have hmore : (Token.isKeyword _ "else" && Token.isKeyword _ "if") = true := Bool.and_eq_true_iff.mpr ⟨hw, hi⟩
      exact .cons (by simp) (fun _ => hmore) (.elseIf ht (.expr hc hk (.keyword ht))
        ((Stmt.Derivations.accepted hb (hs.ahead hr) hk).many hk)) (ElseIf.Derivations.accepted hs hr hn hk)

theorem Stmt.Last.accepted {names : List String} {ts us : List Token} {o : Option (List Stmt)} {close : Token}
    (h : Stmt.Last names ts o) (hl : close.isKeyword "endif") {bound k : Nat} (hk : k ≤ bound) :
    Accepts k (Reader.otherwise bound (stmtWithin bound k)) names ts (close :: us) o
      ((o.map (Stmt.registeredAll names)).getD names) := by
  cases h with
  | absent =>
    refine .current rfl ?_
    obtain ⟨hkind, htext⟩ := Token.is_iff.mp hl
    rw [if_neg (by simp [Token.isKeyword, Token.is, hkind, htext])]
    exact .pure
  | present hw _ h =>
    refine .current rfl ?_
    rw [if_pos hw]
    exact .bind (.discard .advance) (.last ((Stmt.Derivations.accepted h (.ends hl (by decide)) hk).many hk))

theorem Block.Derivation.accepted {names : List String} {next : Option Token} {ts rest : List Token} {b : Block}
    (h : b.Derivation names next ts) (hr : Behind next rest) {bound k : Nat} (hk : k ≤ bound) :
    Accepts k (block bound (stmtWithin bound k)) names ts rest b (b.registered names) := by
  cases h with
  | decls hd hn =>
    refine .block_decls hd hk (hr.ahead (fun t ht => ?_) Ends.starts)
    simpa [beginsPart_iff] using hn t ht
  | stmt hd hs ht => exact .block_stmt hd hk ht (Stmt.Derivation.accepted hs hr hk) hs.starts

end

theorem Reader.ends_of_endsBlocks {t : Token} (h : endsBlocks t = true) : Ends t := by
  rcases Bool.or_eq_true_iff.mp h with hk | hk <;> simp [Ends, BeginsPart, eq_of_beq hk]

theorem Block.Derivations.accepted {bs : List Block}
    (h : Block.Derivations names ts bs) (hr : Ahead (endsBlocks · = true) rest) {bound k : Nat} (hk : k ≤ bound) :
    Run k (!endsBlocks ·.current) (block bound (stmtWithin bound k)) names ts rest bs
      (bs.foldl Block.registered names) := by
  have hmore {b : Block} {names names' next us} (h : b.Derivation names next us) (vs : List Token) (line : Nat) :
      (!endsBlocks (⟨us ++ vs, line, names'⟩ : Input).current) = true := by
    obtain ⟨t, us, rfl, -, ht⟩ := h.starts
    rw [Bool.not_eq_true', Bool.eq_false_iff]
    exact fun hend => (ends_of_endsBlocks hend).2 (beginsPart_iff.mpr ht)
  have hne {b : Block} {names next us} (h : b.Derivation names next us) : us ≠ [] := by
    obtain ⟨t, us, rfl, -⟩ := h.starts
    simp
  induction h with
  | @last names ts b h =>
    have hend : Run k (!endsBlocks ·.current) (block bound (stmtWithin bound k)) (b.registered names) [] rest []
        (b.registered names) := .nil fun line => congrArg not (hr line _)
    rw [← List.append_nil ts]
    exact .cons (hne h) (hmore h _) (h.accepted ⟨nofun, fun _ => hr.imp ends_of_endsBlocks⟩ hk) hend
  | cons h _ ih => exact .cons (hne h) (hmore h _) (h.accepted (.head (hr.imp ends_of_endsBlocks)) hk) ih

theorem Reader.expect_eof (hr : Ahead (·.kind = .eof) rest) (line : Nat) (names : List String) :
    (discard (expect .eof .endOfInput) : Reader Unit) ⟨rest, line, names⟩ = .ok ((), ⟨rest.tail, line, names⟩) := by
  have hexpect : expect .eof .endOfInput ⟨rest, line, names⟩ = advance ⟨rest, line, names⟩ := by
    change (if (⟨rest, line, names⟩ : Input).current.kind = .eof then advance else stop .endOfInput : Reader Token) _ = _
    rw [if_pos (hr line names)]
  exact discard_of_ok (hexpect.trans rfl)

/-- What derives a program is read as that program, if an end token or nothing stands behind it. -/
theorem Program.Derivation.read {p : Program} (h : p.Derivation ts)
    (hr : Ahead (·.kind = .eof) rest) : Program.ofTokens (ts ++ rest) = .ok p := by
  cases h with
  | @mk t ts dot bs hb hd =>
    have hend : Ahead (endsBlocks · = true) (dot ++ rest) := by
      cases hd with
      | absent => exact hr.imp fun h => by simp [endsBlocks, h]
      | present h => exact .cons (by simp [endsBlocks, h])
    have hne : ¬ bs.isEmpty = true := by
      generalize t :: ts = us at hb
      cases hb <;> simp
    unfold Program.ofTokens
    generalize ((t :: ts ++ dot ++ rest).getLast?.map (·.line)).getD 1 = line
    generalize hbound : (t :: ts ++ dot ++ rest).length + 1 = bound
    have hblocks : many bound (!endsBlocks ·.current) (block bound (stmt bound)) ⟨t :: ts ++ dot ++ rest, line, []⟩ =
        .ok (bs, ⟨dot ++ rest, line, bs.foldl Block.registered []⟩) := by
      rw [List.append_assoc] at hbound ⊢
      exact (hb.accepted hend (Nat.le_refl bound)).many (Nat.le_refl _) (by omega) line
    generalize bs.foldl Block.registered [] = names at hblocks
    have hread : program bound ⟨t :: ts ++ dot ++ rest, line, []⟩ = .ok (⟨bs, t.line⟩, ⟨rest.tail, line, names⟩) := by
      have hlook : Reader.current ⟨t :: ts ++ dot ++ rest, line, []⟩ = .ok (t, ⟨t :: ts ++ dot ++ rest, line, []⟩) := rfl
      rw [program, bind_of_ok hlook, bind_of_ok hblocks, if_neg hne]
      cases hd with
      | absent =>
        change (if (⟨rest, line, names⟩ : Input).current.kind = .period then _ else _ : Reader Program) _ = _
        rw [if_neg (by rw [hr]; decide)]
        exact (bind_of_ok (expect_eof hr line names)).trans rfl
      | @present u h =>
        change (if u.kind = .period then _ else _ : Reader Program) _ = _
        have hdot : (discard advance : Reader Unit) ⟨u :: rest, line, names⟩ = .ok ((), ⟨rest, line, names⟩) := rfl
        rw [if_pos h]
        exact (bind_of_ok hdot).trans ((bind_of_ok (expect_eof hr line names)).trans rfl)
    rw [hread]
    rfl

end PLZero
