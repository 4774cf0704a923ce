import PLZero.Proofs.CursorReads
import PLZero.Proofs.LineIndependence
import PLZero.Proofs.Reread
import PLZero.Proofs.Scoped

/-! The two forms of a call. What derives a program still derives it, up to lines, without the keywords of some calls,
as long as every called name is one of the procedures in sight. -/

namespace PLZero

variable {ts : List Token} {names : List String}

open Grammar Reader

/-- The second list is the first without the keywords of some of its calls. -/
inductive DropsCalls : List Token → List Token → Prop
  | nil : DropsCalls [] []
  | keep {ts us : List Token} (t : Token) (h : DropsCalls ts us) : DropsCalls (t :: ts) (t :: us)
  | drop {word name semi : Token} {ts us : List Token} (hw : word.isKeyword "call" = true) (hn : name.kind = .identifier)
      (hs : semi.kind = .semicolon) (h : DropsCalls ts us) : DropsCalls (word :: name :: semi :: ts) (name :: semi :: us)

/-- Some of the words `call` are gone, wherever they stood. -/
inductive Sheds : List Token → List Token → Prop
  | nil : Sheds [] []
  | keep {ts us : List Token} (t : Token) (h : Sheds ts us) : Sheds (t :: ts) (t :: us)
  | drop {word : Token} {ts us : List Token} (hw : word.isKeyword "call" = true) (h : Sheds ts us) : Sheds (word :: ts) us

theorem DropsCalls.sheds {us : List Token} (h : DropsCalls ts us) : Sheds ts us := by
  induction h with
  | nil => exact .nil
  | keep t _ ih => exact .keep t ih
  | drop hw _ _ _ ih => exact .drop hw (.keep _ (.keep _ ih))

/-- What comes next still ends a phrase where it ended one before. -/
def Replaces (next next' : Option Token) : Prop :=
  ∀ t' ∈ next', ∃ t ∈ next, (t'.kind = .semicolon → t.kind = .semicolon) ∧ (BeginsPart t' → BeginsPart t)

theorem Replaces.refl {next : Option Token} : Replaces next next := fun t ht => ⟨t, ht, id, id⟩

theorem Replaces.behind {next next' : Option Token} (h : Replaces next next') (o : Option Token) :
    Replaces (o.or next) (o.or next') := by
  cases o with
  | none => exact h
  | some t => exact .refl

namespace Sheds

variable {t : Token} {us vs : List Token} {w : String} {next next' : Option Token}

theorem cons (h : Sheds (t :: ts) vs) (ht : t.isKeyword "call" = false) : ∃ us, vs = t :: us ∧ Sheds ts us := by
  cases h with
  | keep _ h => exact ⟨_, rfl, h⟩
  | drop hw => simp [ht] at hw

theorem mark {kind : TokenKind} (h : Sheds (t :: ts) vs) (ht : t.kind = kind) (hk : kind ≠ .keyword) :
    ∃ us, vs = t :: us ∧ Sheds ts us := h.cons (by simp [Token.isKeyword, Token.is, ht, hk])

theorem eq_of_mark {kind : TokenKind} (h : Sheds [t] vs) (ht : t.kind = kind) (hk : kind ≠ .keyword) : vs = [t] := by
  obtain ⟨us, rfl, h'⟩ := h.mark ht hk
  cases h'
  rfl

theorem word (h : Sheds (t :: ts) vs) (ht : t.isKeyword w = true) (hw : w ≠ "call") :
    ∃ us, vs = t :: us ∧ Sheds ts us := by
  obtain ⟨hk, rfl⟩ := Token.is_iff.mp ht
  exact h.cons (by simp [Token.isKeyword, Token.is, hk, hw])

theorem append (h : Sheds (ts ++ us) vs) : ∃ ts' us', vs = ts' ++ us' ∧ Sheds ts ts' ∧ Sheds us us' := by
  induction ts generalizing vs with
  | nil => exact ⟨[], vs, rfl, .nil, h⟩
  | cons t ts ih =>
    cases h with
    | keep _ h =>
      obtain ⟨ts', us', rfl, hts, hus⟩ := ih h
      exact ⟨t :: ts', us', rfl, .keep t hts, hus⟩
    | drop hw h =>
      obtain ⟨ts', us', rfl, hts, hus⟩ := ih h
      exact ⟨ts', us', rfl, .drop hw hts, hus⟩

theorem skip (h : Sheds (ts ++ us) vs) (hts : ∀ t ∈ ts, t.isKeyword "call" = false) : ∃ us', vs = ts ++ us' ∧ Sheds us us' := by
  induction ts generalizing vs with
  | nil => exact ⟨vs, rfl, h⟩
  | cons t ts ih =>
    obtain ⟨ht, hts⟩ := List.forall_mem_cons.mp hts
    obtain ⟨vs, rfl, h'⟩ := h.cons ht
    obtain ⟨us', rfl, hus⟩ := ih h' hts
    exact ⟨us', rfl, hus⟩

theorem plain (h : Sheds (ts ++ us) vs) (hts : ∀ t ∈ ts, Plain t) : ∃ us', vs = ts ++ us' ∧ Sheds us us' :=
  h.skip fun t ht => by simp [Token.isKeyword, Token.is, (hts t ht).1]

theorem expr {tier : Tier} {e : Expr} (h : Sheds (ts ++ us) vs) (he : e.Derivation tier ts) :
    ∃ us', vs = ts ++ us' ∧ Sheds us us' := h.plain (plain_of_expr he)

theorem optional (h : Sheds ts us) (hs : Optional .semicolon next ts) (hn : Replaces next next') :
    us = ts ∧ Optional .semicolon next' ts := by
  cases hs with
  | absent hno =>
    cases h
    refine ⟨rfl, .absent fun t' ht' hk => ?_⟩
    obtain ⟨t, ht, hsemi, -⟩ := hn t' ht'
    exact hno t ht (hsemi hk)
  | present hk =>
    obtain ⟨_, rfl, h'⟩ := h.mark hk (by decide)
    cases h'
    exact ⟨rfl, .present hk⟩

theorem closing (h : Sheds (t :: ts) us) (ht : t.isKeyword w = true) (hw : w ≠ "call")
    (hs : Optional .semicolon next ts) (hn : Replaces next next') : us = t :: ts ∧ Optional .semicolon next' ts := by
  obtain ⟨us, rfl, h'⟩ := h.word ht hw
  obtain ⟨rfl, hs'⟩ := h'.optional hs hn
  exact ⟨rfl, hs'⟩

theorem replaces (h : Sheds ts us) (hts : ∀ t ∈ ts.head?, BeginsPart t) (hus : ∀ t ∈ us.head?, BeginsPart t) :
    Replaces ts.head? us.head? := by
  intro t' ht'
  cases ts with
  | nil =>
    cases h
    cases ht'
  | cons t ts =>
    refine ⟨t, rfl, fun hk => ?_, fun _ => hts t rfl⟩
    obtain hk' | ⟨hk', -⟩ := hus t' ht' <;> cases hk.symm.trans hk'

end Sheds

theorem Stmt.Derivations.begins {ss : List Stmt}
    (h : Stmt.Derivations names ts ss) : ∀ t ∈ ts.head?, BeginsPart t := by
  cases h with
  | nil => exact nofun
  | cons h =>
    obtain ⟨t, us, rfl, ht⟩ := h.starts
    simpa using beginsPart_iff.mpr (.inr ht)

theorem Decl.Derivations.no_call {ds : List Decl} (h : Decl.Derivations ts ds) :
    ∀ t ∈ ts, t.isKeyword "call" = false := by
  have hlist {word semi : Token} {w : String} {us : List Token} (hw : word.isKeyword w = true) (hne : w ≠ "call")
      (hus : ∀ t ∈ us, Plain t) (hs : semi.kind = .semicolon) :
      ∀ t ∈ word :: (us ++ [semi]), t.isKeyword "call" = false := by
    obtain ⟨hk, rfl⟩ := Token.is_iff.mp hw
    refine List.forall_mem_cons.mpr ⟨by simp [Token.isKeyword, Token.is, hne], List.forall_mem_append.mpr
      ⟨fun t ht => by simp [Token.isKeyword, Token.is, (hus t ht).1], by simp [Token.isKeyword, Token.is, hs]⟩⟩
  have hinitial {t : Token} {i : Initial} (h : i.Derivation t) : Plain t := by cases h <;> simp [Plain, *]
  induction h with
  | nil => exact List.forall_mem_nil _
  | cons h _ ih =>
    refine List.forall_mem_append.mpr ⟨?_, ih⟩
    cases h with
    | const hw hd hs =>
      refine hlist hw (by decide) (plain_of_listed hd fun ts d h => ?_) hs
      cases h with
      | mk hn he hi => simpa [Plain, hn, he.1] using hinitial hi
    | var hw hd hs =>
      refine hlist hw (by decide) (plain_of_listed hd fun ts d h => ?_) hs
      cases h with
      | plain hn => simp [Plain, hn]
      | initial hn he hi => simpa [Plain, hn, he.1] using hinitial hi

mutual

/-- Where every call is to a procedure in sight, a statement is derived without the words that are gone, up to lines. -/
theorem Stmt.Derivation.shed {names : List String} {next next' : Option Token} {ts us : List Token} {s : Stmt}
    (h : s.Derivation names next ts) (hs : Sheds ts us) (hnext : Replaces next next')
    (hcalls : ∀ call ∈ s.calls names, call.1 ∈ call.2) :
    ∃ s' : Stmt, s'.Derivation names next' us ∧ s'.onLine 0 = s.onLine 0 ∧ s'.registered names = s.registered names := by
  cases h with
  | assign hn hb hv hsemi =>
    obtain ⟨_, rfl, h1⟩ := hs.mark hn (by decide)
    obtain ⟨_, rfl, h2⟩ := h1.mark hb (by decide)
    obtain ⟨_, rfl, h3⟩ := h2.expr hv
    obtain rfl := h3.eq_of_mark hsemi (by decide)
    exact ⟨_, .assign hn hb hv hsemi, rfl, rfl⟩
  | bareCall hn hm hsemi =>
    obtain ⟨_, rfl, h1⟩ := hs.mark hn (by decide)
    obtain rfl := h1.eq_of_mark hsemi (by decide)
    exact ⟨_, .bareCall hn hm hsemi, rfl, rfl⟩
  | @call _ _ _ name semi hw hn hsemi =>
    have htail {vs : List Token} (h : Sheds [name, semi] vs) : vs = [name, semi] := by
      obtain ⟨_, rfl, h1⟩ := h.mark hn (by decide)
      obtain rfl := h1.eq_of_mark hsemi (by decide)
      rfl
    cases hs with
    | keep _ h =>
      obtain rfl := htail h
      exact ⟨_, .call hw hn hsemi, rfl, rfl⟩
    | drop _ h =>
      obtain rfl := htail h
      exact ⟨_, .bareCall hn (hcalls _ List.mem_cons_self) hsemi, rfl, rfl⟩
  | ifElse hw hc ht hb he ho hl hsemi =>
    rw [Stmt.calls_ifElse] at hcalls
    obtain ⟨hbody, hothers⟩ := List.forall_mem_append.mp hcalls
    obtain ⟨helse, hlast⟩ := List.forall_mem_append.mp hothers
    obtain ⟨_, rfl, h1⟩ := hs.word hw (by decide)
    obtain ⟨_, rfl, h2⟩ := h1.expr hc
    obtain ⟨_, rfl, h3⟩ := h2.word ht (by decide)
    obtain ⟨_, _, rfl, hbs, h4⟩ := h3.append
    obtain ⟨_, _, rfl, hes, h5⟩ := h4.append
    obtain ⟨_, _, rfl, hos, h6⟩ := h5.append
    obtain ⟨rfl, hsemi'⟩ := h6.closing hl (by decide) hsemi hnext
    obtain ⟨body, hb', hlines, hnames⟩ := Stmt.Derivations.shed hb hbs hbody
    obtain ⟨elseIfs, he', helines, henames⟩ := ElseIf.Derivations.shed he hes helse
    obtain ⟨other, ho', holines, honames⟩ := Stmt.Last.shed ho hos hlast
    rw [← hnames] at he'
    rw [← henames, ← hnames] at ho'
    refine ⟨_, .ifElse hw hc ht hb' he' ho' hl hsemi', ?_, ?_⟩
    · rw [Stmt.onLine, Stmt.onLine, hlines, helines, holines]
    · rw [Stmt.registered_ifElse, Stmt.registered_ifElse, hnames, henames, honames]
  | whileDo hw hc hd hb hl hsemi =>
    obtain ⟨_, rfl, h1⟩ := hs.word hw (by decide)
    obtain ⟨_, rfl, h2⟩ := h1.expr hc
    obtain ⟨_, rfl, h3⟩ := h2.word hd (by decide)
    obtain ⟨_, _, rfl, hbs, h4⟩ := h3.append
    obtain ⟨rfl, hsemi'⟩ := h4.closing hl (by decide) hsemi hnext
    obtain ⟨body, hb', hlines, hnames⟩ := Stmt.Derivations.shed hb hbs hcalls
    exact ⟨_, .whileDo hw hc hd hb' hl hsemi', by rw [Stmt.onLine, Stmt.onLine, hlines], hnames⟩
  | forTo hw hn ha hf ht hm hd hb hl hsemi =>
    obtain ⟨_, rfl, h1⟩ := hs.word hw (by decide)
    obtain ⟨_, rfl, h2⟩ := h1.mark hn (by decide)
    obtain ⟨_, rfl, h3⟩ := h2.mark ha (by decide)
    obtain ⟨_, rfl, h4⟩ := h3.expr hf
    obtain ⟨_, rfl, h5⟩ := h4.word ht (by decide)
    obtain ⟨_, rfl, h6⟩ := h5.expr hm
    obtain ⟨_, rfl, h7⟩ := h6.word hd (by decide)
    obtain ⟨_, _, rfl, hbs, h8⟩ := h7.append
    obtain ⟨rfl, hsemi'⟩ := h8.closing hl (by decide) hsemi hnext
    obtain ⟨body, hb', hlines, hnames⟩ := Stmt.Derivations.shed hb hbs hcalls
    exact ⟨_, .forTo hw hn ha hf ht hm hd hb' hl hsemi', by rw [Stmt.onLine, Stmt.onLine, hlines], hnames⟩
  | read hw hl hi hr hsemi =>
    obtain ⟨_, rfl, h1⟩ := hs.word hw (by decide)
    obtain ⟨_, rfl, h2⟩ := h1.mark (Token.is_iff.mp hl).1 (by decide)
    obtain ⟨_, rfl, h3⟩ := h2.plain (plain_of_listed hi fun _ _ ⟨hk⟩ => by simp [Plain, hk])
    obtain ⟨_, rfl, h4⟩ := h3.mark (Token.is_iff.mp hr).1 (by decide)
    obtain rfl := h4.eq_of_mark hsemi (by decide)
    exact ⟨_, .read hw hl hi hr hsemi, rfl, rfl⟩
  | readOne hw hn hsemi =>
    obtain ⟨_, rfl, h1⟩ := hs.word hw (by decide)
    obtain ⟨_, rfl, h2⟩ := h1.mark hn (by decide)
    obtain rfl := h2.eq_of_mark hsemi (by decide)
    exact ⟨_, .readOne hw hn hsemi, rfl, rfl⟩
  | write hw hl hv hr hsemi =>
    obtain ⟨_, rfl, h1⟩ := hs.word hw (by decide)
    obtain ⟨_, rfl, h2⟩ := h1.mark (Token.is_iff.mp hl).1 (by decide)
    obtain ⟨_, rfl, h3⟩ := h2.plain (plain_of_listed hv fun _ _ h => plain_of_expr h)
    obtain ⟨_, rfl, h4⟩ := h3.mark (Token.is_iff.mp hr).1 (by decide)
    obtain rfl := h4.eq_of_mark hsemi (by decide)
    exact ⟨_, .write hw hl hv hr hsemi, rfl, rfl⟩
  | writeBare hw hv hsemi =>
    obtain ⟨_, rfl, h1⟩ := hs.word hw (by decide)
    obtain ⟨_, rfl, h2⟩ := h1.plain (plain_of_listed hv fun _ _ h => plain_of_expr h)
    obtain rfl := h2.eq_of_mark hsemi (by decide)
    exact ⟨_, .writeBare hw hv hsemi, rfl, rfl⟩
  | group hw hb hl hsemi =>
    obtain ⟨_, rfl, h1⟩ := hs.word hw (by decide)
    obtain ⟨_, _, rfl, hbs, h2⟩ := h1.append
    obtain ⟨rfl, hsemi'⟩ := h2.closing hl (by decide) hsemi hnext
    obtain ⟨body, hb', hlines, hnames⟩ := Stmt.Derivations.shed hb hbs hcalls
    exact ⟨_, .group hw hb' hl hsemi', by rw [Stmt.onLine, Stmt.onLine, hlines], hnames⟩
  | procedure hw hn hsemi hb hl =>
    obtain ⟨_, rfl, h1⟩ := hs.word hw (by decide)
    obtain ⟨_, rfl, h2⟩ := h1.mark hn (by decide)
    obtain ⟨_, rfl, h3⟩ := h2.mark hsemi (by decide)
    obtain ⟨_, _, rfl, hbs, h4⟩ := h3.append
    obtain ⟨rfl, hl'⟩ := h4.optional hl hnext
    obtain ⟨body, hb', hlines, -⟩ := Block.Derivation.shed hb hbs (hnext.behind _) hcalls
    exact ⟨_, .procedure hw hn hsemi hb' hl', by rw [Stmt.onLine, Stmt.onLine, hlines], rfl⟩

theorem Stmt.Derivations.shed {names : List String} {ts us : List Token} {ss : List Stmt}
    (h : Stmt.Derivations names ts ss) (hs : Sheds ts us) (hcalls : ∀ call ∈ Stmt.callsAll names ss, call.1 ∈ call.2) :
    ∃ ss', Stmt.Derivations names us ss' ∧ Stmt.onLineAll 0 ss' = Stmt.onLineAll 0 ss ∧
      Stmt.registeredAll names ss' = Stmt.registeredAll names ss := by
  cases h with
  | nil =>
    cases hs
    exact ⟨[], .nil, rfl, rfl⟩
  | cons h hr =>
    obtain ⟨_, _, rfl, hts, hus⟩ := hs.append
    obtain ⟨hfirst, hrest⟩ := List.forall_mem_append.mp hcalls
    obtain ⟨ss, hr', hlines, hnames⟩ := Stmt.Derivations.shed hr hus hrest
    obtain ⟨s, h', hline, hname⟩ := Stmt.Derivation.shed h hts (hus.replaces hr.begins hr'.begins) hfirst
    refine ⟨s :: ss, .cons h' (hname ▸ hr'), ?_, ?_⟩
    · rw [Stmt.onLineAll, Stmt.onLineAll, hline, hlines]
    · rw [Stmt.registeredAll, Stmt.registeredAll, hname, hnames]

theorem ElseIf.Derivations.shed {names : List String} {ts us : List Token} {es : List ElseIf}
    (h : ElseIf.Derivations names ts es) (hs : Sheds ts us)
    (hcalls : ∀ call ∈ ElseIf.callsAll names es, call.1 ∈ call.2) :
    ∃ es', ElseIf.Derivations names us es' ∧ ElseIf.onLineAll 0 es' = ElseIf.onLineAll 0 es ∧
      ElseIf.registeredAll names es' = ElseIf.registeredAll names es := by
  cases h with
  | nil =>
    cases hs
    exact ⟨[], .nil, rfl, rfl⟩
  | cons h hr =>
    cases h with
    | mk hw hi hc ht hb =>
      obtain ⟨_, _, rfl, hts, hus⟩ := hs.append
      obtain ⟨hfirst, hrest⟩ := List.forall_mem_append.mp hcalls
      obtain ⟨_, rfl, h1⟩ := hts.word hw (by decide)
      obtain ⟨_, rfl, h2⟩ := h1.word hi (by decide)
      obtain ⟨_, rfl, h3⟩ := h2.expr hc
      obtain ⟨_, rfl, h4⟩ := h3.word ht (by decide)
      obtain ⟨body, hb', hlines, hnames⟩ := Stmt.Derivations.shed hb h4 hfirst
      obtain ⟨es, hr', helines, henames⟩ := ElseIf.Derivations.shed hr hus hrest
      rw [← hnames] at hr'
      refine ⟨_, .cons (.mk hw hi hc ht hb') hr', ?_, ?_⟩
      · rw [ElseIf.onLineAll, ElseIf.onLineAll, hlines, helines]
      · rw [ElseIf.registeredAll, ElseIf.registeredAll, hnames, henames]

theorem Stmt.Last.shed {names : List String} {ts us : List Token} {o : Option (List Stmt)}
    (h : Stmt.Last names ts o) (hs : Sheds ts us)
    (hcalls : ∀ call ∈ (o.map (Stmt.callsAll names)).getD [], call.1 ∈ call.2) :
    ∃ o', Stmt.Last names us o' ∧ Stmt.onLineLast 0 o' = Stmt.onLineLast 0 o ∧
      (o'.map (Stmt.registeredAll names)).getD names = (o.map (Stmt.registeredAll names)).getD names := by
  cases h with
  | absent =>
    cases hs
    exact ⟨none, .absent, rfl, rfl⟩
  | present hw hn h =>
    obtain ⟨_, rfl, h1⟩ := hs.word hw (by decide)
    obtain ⟨ss, h', hlines, hnames⟩ := Stmt.Derivations.shed h h1 hcalls
    refine ⟨some ss, .present hw (h'.not_if_iff.mpr ?_) h', by rw [Stmt.onLineLast, Stmt.onLineLast, hlines], hnames⟩
    rw [← Stmt.any_isIf_onLineAll, hlines, Stmt.any_isIf_onLineAll]
    exact h.not_if_iff.mp hn

theorem Block.Derivation.shed {names : List String} {next next' : Option Token} {ts us : List Token} {b : Block}
    (h : b.Derivation names next ts) (hs : Sheds ts us) (hnext : Replaces next next')
    (hcalls : ∀ call ∈ b.calls names, call.1 ∈ call.2) :
    ∃ b' : Block, b'.Derivation names next' us ∧ b'.onLine 0 = b.onLine 0 ∧ b'.registered names = b.registered names := by
  cases h with
  | decls hd hn =>
    rw [← List.append_nil (_ :: _)] at hs
    obtain ⟨_, rfl, h1⟩ := hs.skip hd.no_call
    cases h1
    rw [List.append_nil]
    refine ⟨_, .decls hd fun t' ht' hbegins => ?_, rfl, rfl⟩
    obtain ⟨t, ht, -, hpart⟩ := hnext t' ht'
    exact hn t ht (hpart hbegins)
  | @stmt _ _ _ ts _ _ _ hd hst ht =>
    obtain ⟨us, rfl, hus⟩ := hs.skip hd.no_call
    obtain ⟨s, hst', hline, hname⟩ := Stmt.Derivation.shed hst hus hnext hcalls
    obtain ⟨t, ht⟩ : ∃ t, (ts ++ us).head? = some t := by
      obtain ⟨t, us, rfl, -⟩ := hst'.starts
      cases ts <;> exact ⟨_, rfl⟩
    refine ⟨_, .stmt hd hst' ht, by rw [Block.onLine, Block.onLine, hline], ?_⟩
    exact congrArg (Stmt.registeredAll · []) hname

end

theorem Block.Derivations.shed {us : List Token} {bs : List Block}
    (h : Block.Derivations names ts bs) (hs : Sheds ts us)
    (hcalls : ∀ call ∈ Block.callsAll names bs, call.1 ∈ call.2) :
    ∃ bs', Block.Derivations names us bs' ∧ bs'.map (Block.onLine 0) = bs.map (Block.onLine 0) := by
  induction h generalizing us with
  | last h =>
    obtain ⟨b, h', hline, -⟩ := h.shed hs .refl (List.forall_mem_append.mp hcalls).1
    exact ⟨[b], .last h', congrArg (fun b => [b]) hline⟩
  | cons h hr ih =>
    obtain ⟨_, _, rfl, hts, hus⟩ := hs.append
    obtain ⟨hfirst, hrest⟩ := List.forall_mem_append.mp hcalls
    obtain ⟨bs, hr', hlines⟩ := ih hus hrest
    obtain ⟨t, vs, rfl, ht, -⟩ := hr.starts
    obtain ⟨t', vs', rfl, ht', -⟩ := hr'.starts
    obtain ⟨b, h', hline, hname⟩ := h.shed hts (hus.replaces (by simpa using ht) (by simpa using ht')) hfirst
    refine ⟨b :: bs, .cons h' (hname ▸ hr'), ?_⟩
    rw [List.map_cons, List.map_cons, hline, hlines]

/-- All procedures that are declared in these scopes are among the names. -/
def NamesCover (names : List String) (scopes : List Table) : Prop :=
  ∀ table ∈ scopes, ∀ name body line, Symbol.procedure name body line ∈ table → name ∈ names

namespace NamesCover

variable {scopes outer : List Table} {table : Table}

theorem nil : NamesCover names [[]] := by simp [NamesCover]

theorem inside (h : NamesCover names scopes) : NamesCover names ([] :: scopes) := List.forall_mem_cons.mpr ⟨by simp, h⟩

theorem procedure (h : NamesCover names (table :: outer)) (name : String) (body : List Symbol) (line : Nat) :
    NamesCover (name :: names) ((table ++ [.procedure name body line]) :: outer) := by
  obtain ⟨htable, houter⟩ := List.forall_mem_cons.mp h
  refine List.forall_mem_cons.mpr ⟨fun other body' line' hmem => ?_, fun t ht other body' line' hmem => ?_⟩
  · obtain hmem | hmem := List.mem_append.mp hmem
    · exact List.mem_cons_of_mem _ (htable other body' line' hmem)
    · cases List.mem_singleton.mp hmem
      exact List.mem_cons_self
  · exact List.mem_cons_of_mem _ (houter t ht other body' line' hmem)

theorem callable (h : NamesCover names scopes) {name : String} {line : Nat} {u : Unit}
    (hc : Table.callable scopes name line = .ok u) : name ∈ names := by
  unfold Table.callable at hc
  split at hc
  · next other body line' hs =>
    obtain ⟨table, htable, hfind⟩ := List.exists_of_findSome?_eq_some hs
    have hname : ((Symbol.procedure other body line').name == name) = true := by
      have hfound := List.find?_some hfind
      exact hfound
    rw [← eq_of_beq hname]
    exact h table htable other body line' (List.mem_of_find?_eq_some hfind)
  · cases hc

theorem decls {ds : List Decl} {table' : Table} (h : NamesCover names (table :: outer))
    (hd : Decl.analyzeAll outer ds table = .ok table') : NamesCover names (table' :: outer) := by
  induction ds generalizing table with
  | nil => cases hd; exact h
  | cons d ds ih =>
    obtain ⟨s, hs, hd⟩ := ok_of_bind hd
    obtain ⟨t, ht, hd⟩ := ok_of_bind hd
    obtain ⟨-, rfl⟩ := Table.declare_ok ht
    have hplain (name : String) (body : List Symbol) (line : Nat) : s ≠ .procedure name body line := by
      rintro rfl
      cases d with
      | var name init line | const name init line =>
        cases init with
        | none => cases hs
        | some i =>
          obtain ⟨v, -, hs⟩ := ok_of_bind hs
          cases hs
    obtain ⟨htable, houter⟩ := List.forall_mem_cons.mp h
    refine ih (List.forall_mem_cons.mpr ⟨fun name body line hmem => ?_, houter⟩) hd
    obtain hmem | hmem := List.mem_append.mp hmem
    · exact htable name body line hmem
    · exact absurd (List.mem_singleton.mp hmem).symm (hplain name body line)

end NamesCover

mutual

/-- The names that can be called bare cover the procedures of the tables all along; so every call is to one of them. -/
theorem Stmt.calls_registered {names : List String} {outer : List Table} {table table' : Table}
    (hc : NamesCover names (table :: outer)) (s : Stmt) (h : s.analyze outer table = .ok table') :
    NamesCover (s.registered names) (table' :: outer) ∧ ∀ call ∈ s.calls names, call.1 ∈ call.2 := by
  match s with
  | .assign name value line =>
    obtain ⟨_, -, h⟩ := ok_of_bind h
    obtain ⟨_, -, h⟩ := ok_of_bind h
    cases h
    exact ⟨hc, nofun⟩
  | .ifElse cond body elseIfs (some other) line =>
    obtain ⟨_, -, h⟩ := ok_of_bind h
    obtain ⟨t1, hb, h⟩ := ok_of_bind h
    obtain ⟨t2, he, h⟩ := ok_of_bind h
    obtain ⟨hc1, hbody⟩ := Stmt.calls_registeredAll hc body hb
    obtain ⟨hc2, helse⟩ := ElseIf.calls_registeredAll hc1 elseIfs he
    obtain ⟨hc3, hother⟩ := Stmt.calls_registeredAll hc2 other h
    exact ⟨hc3, List.forall_mem_append.mpr ⟨hbody, List.forall_mem_append.mpr ⟨helse, hother⟩⟩⟩
  | .ifElse cond body elseIfs none line =>
    obtain ⟨_, -, h⟩ := ok_of_bind h
    obtain ⟨t1, hb, h⟩ := ok_of_bind h
    obtain ⟨t2, he, h⟩ := ok_of_bind h
    cases h
    obtain ⟨hc1, hbody⟩ := Stmt.calls_registeredAll hc body hb
    obtain ⟨hc2, helse⟩ := ElseIf.calls_registeredAll hc1 elseIfs he
    exact ⟨hc2, List.forall_mem_append.mpr ⟨hbody, List.forall_mem_append.mpr ⟨helse, nofun⟩⟩⟩
  | .whileDo cond body line =>
    obtain ⟨_, -, h⟩ := ok_of_bind h
    exact Stmt.calls_registeredAll hc body h
  | .forTo counter start bound body line =>
    obtain ⟨_, -, h⟩ := ok_of_bind h
    obtain ⟨_, -, h⟩ := ok_of_bind h
    obtain ⟨_, -, h⟩ := ok_of_bind h
    exact Stmt.calls_registeredAll hc body h
  | .read targets line =>
    obtain ⟨_, -, h⟩ := ok_of_bind h
    cases h
    exact ⟨hc, nofun⟩
  | .write values line =>
    obtain ⟨_, -, h⟩ := ok_of_bind h
    cases h
    exact ⟨hc, nofun⟩
  | .call name line =>
    obtain ⟨_, hcall, h⟩ := ok_of_bind h
    cases h
    refine ⟨hc, fun call hmem => ?_⟩
    cases List.mem_singleton.mp hmem
    exact hc.callable hcall
  | .group body line => exact Stmt.calls_registeredAll hc body h
  | .procedure name body line =>
    obtain ⟨inside, hdecl, h⟩ := ok_of_bind h
    obtain ⟨locals, hb, h⟩ := ok_of_bind h
    cases h
    obtain ⟨-, rfl⟩ := Table.declare_ok hdecl
    -- what the body declares is gone behind it, from the tables and from the names
    exact ⟨hc.procedure name locals line, (Block.calls_registered (hc.procedure name [] line).inside body hb).2⟩

theorem Stmt.calls_registeredAll {names : List String} {outer : List Table} {table table' : Table}
    (hc : NamesCover names (table :: outer)) (ss : List Stmt) (h : Stmt.analyzeAll outer table ss = .ok table') :
    NamesCover (Stmt.registeredAll names ss) (table' :: outer) ∧ ∀ call ∈ Stmt.callsAll names ss, call.1 ∈ call.2 := by
  match ss with
  | [] =>
    cases h
    exact ⟨hc, nofun⟩
  | s :: ss =>
    obtain ⟨t1, hs, h⟩ := ok_of_bind h
    obtain ⟨hc1, hfirst⟩ := Stmt.calls_registered hc s hs
    obtain ⟨hc2, hrest⟩ := Stmt.calls_registeredAll hc1 ss h
    exact ⟨hc2, List.forall_mem_append.mpr ⟨hfirst, hrest⟩⟩

theorem ElseIf.calls_registeredAll {names : List String} {outer : List Table} {table table' : Table}
    (hc : NamesCover names (table :: outer)) (es : List ElseIf) (h : ElseIf.analyzeAll outer table es = .ok table') :
    NamesCover (ElseIf.registeredAll names es) (table' :: outer) ∧ ∀ call ∈ ElseIf.callsAll names es, call.1 ∈ call.2 := by
  match es with
  | [] =>
    cases h
    exact ⟨hc, nofun⟩
  | ⟨cond, body, line⟩ :: es =>
    obtain ⟨_, -, h⟩ := ok_of_bind h
    obtain ⟨t1, hb, h⟩ := ok_of_bind h
    obtain ⟨hc1, hbody⟩ := Stmt.calls_registeredAll hc body hb
    obtain ⟨hc2, hrest⟩ := ElseIf.calls_registeredAll hc1 es h
    exact ⟨hc2, List.forall_mem_append.mpr ⟨hbody, hrest⟩⟩

theorem Block.calls_registered {names : List String} {outer : List Table} {table table' : Table}
    (hc : NamesCover names (table :: outer)) (b : Block) (h : b.analyze outer table = .ok table') :
    NamesCover (b.registered names) (table' :: outer) ∧ ∀ call ∈ b.calls names, call.1 ∈ call.2 := by
  match b with
  | ⟨decls, some s, line⟩ =>
    obtain ⟨t1, hd, h⟩ := ok_of_bind h
    exact Stmt.calls_registered (hc.decls hd) s h
  | ⟨decls, none, line⟩ =>
    obtain ⟨t1, hd, h⟩ := ok_of_bind h
    cases h
    exact ⟨hc.decls hd, nofun⟩

end

theorem Block.calls_registeredAll {outer : List Table} {table table' : Table}
    (hc : NamesCover names (table :: outer)) (bs : List Block) (h : Block.analyzeAll outer table bs = .ok table') :
    ∀ call ∈ Block.callsAll names bs, call.1 ∈ call.2 := by
  induction bs generalizing names table with
  | nil => exact nofun
  | cons b bs ih =>
    obtain ⟨t1, hb, h⟩ := ok_of_bind h
    obtain ⟨hc1, hfirst⟩ := Block.calls_registered hc b hb
    exact List.forall_mem_append.mpr ⟨hfirst, ih hc1 h⟩

namespace Program

variable {tokens tokens' : List Token}

theorem calls_registered {p : Program} {table : Table} (h : p.analyze = .ok table) : ∀ call ∈ p.calls, call.1 ∈ call.2 :=
  Block.calls_registeredAll .nil p.blocks h

/-- Where every call is to a procedure in sight, keywords can be dropped. -/
theorem ofTokens_of_sheds {p : Program} (h : ofTokens tokens = .ok p) (hp : ∀ call ∈ p.calls, call.1 ∈ call.2)
    (hs : Sheds tokens tokens') : ∃ p', ofTokens tokens' = .ok p' ∧ p'.onLine 0 = p.onLine 0 := by
  obtain ⟨ts, last, rfl, -, hend, hd⟩ := ofTokens_ok h
  cases hd with
  | @mk t ts dot bs hb hdot =>
    obtain ⟨_, rest, rfl, hts, hrest⟩ := hs.append
    obtain ⟨us, dot', rfl, hus, hdots⟩ := hts.append
    obtain ⟨bs', hb', hlines⟩ := hb.shed hus hp
    obtain ⟨t', us, rfl, -⟩ := hb'.starts
    obtain rfl : dot' = dot := by
      cases hdot with
      | absent =>
        cases hdots
        rfl
      | present hk => exact hdots.eq_of_mark hk (by decide)
    have hlast : Ahead (·.kind = .eof) rest := by
      obtain ⟨_ | ⟨u, us⟩, line, names⟩ := last
      · cases hrest
        exact fun _ _ => rfl
      · have hu : u.kind = .eof := by simpa using hend
        obtain ⟨_, rfl, -⟩ := hrest.mark hu (by decide)
        exact .cons hu
    exact ⟨⟨bs', t'.line⟩, (Program.Derivation.mk hb' hdot).read hlast, by rw [Program.onLine, Program.onLine, hlines]⟩

/-- Calls with and without their keyword are the same: whichever keywords are dropped from a program that analysis
accepts, the program and its symbols differ by lines only. For every name that is called the reader has its procedure
in sight. -/
theorem call_keyword_optional {p : Program} {table : Table} (h : ofTokens tokens = .ok p) (ha : p.analyze = .ok table) :
    (∀ tokens', DropsCalls tokens tokens' → ∃ p' table', ofTokens tokens' = .ok p' ∧ p'.onLine 0 = p.onLine 0 ∧
      p'.analyze = .ok table' ∧ table'.onLine 0 = table.onLine 0) ∧
    ∀ bound, tokens.length < bound → ∃ c, Walk.program bound tokens .start = some (.ok p, c) ∧ c.calls = p.calls ∧
      ∀ call ∈ c.calls, call.1 ∈ call.2 := by
  have hcalls := calls_registered ha
  refine ⟨fun tokens' hall => ?_, fun bound hb => ?_⟩
  · obtain ⟨p', h', heq⟩ := ofTokens_of_sheds h hcalls hall.sheds
    obtain ⟨table', ha', htable⟩ := analyze_of_onLine_eq heq ha
    exact ⟨p', table', h', heq, ha', htable⟩
  · obtain ⟨result, c, hwalk, hresult, -, hlog⟩ := walks tokens hb
    rw [h] at hresult
    cases result with
    | error e => cases hresult
    | ok q =>
      cases hresult
      have hlog : c.calls = p.calls := hlog
      exact ⟨c, hwalk, hlog, hlog ▸ hcalls⟩

/-- A recursive call loses its keyword, and the call from outside keeps it. -/
theorem call_keyword_optional_recursive : ∃ tokens tokens' p table,
    tokens = (Scan.ofSource "procedure p; call\np; ;\ncall p;").tokens ∧
    tokens' = (Scan.ofSource "procedure p;\np; ;\ncall p;").tokens ∧
    ofTokens tokens = .ok p ∧ p.analyze = .ok table ∧ DropsCalls tokens tokens' ∧
    p.calls = [("p", ["p"]), ("p", ["p"])] ∧
    ∃ p' table', ofTokens tokens' = .ok p' ∧ p'.onLine 0 = p.onLine 0 ∧
      p'.analyze = .ok table' ∧ table'.onLine 0 = table.onLine 0 := by
  have hdrops : DropsCalls (Scan.ofSource "procedure p; call\np; ;\ncall p;").tokens
      (Scan.ofSource "procedure p;\np; ;\ncall p;").tokens :=
    .keep _ (.keep _ (.keep _ (.drop rfl rfl rfl (.keep _ (.keep _ (.keep _ (.keep _ (.keep _ .nil))))))))
  refine ⟨_, _, _, _, rfl, rfl, rfl, rfl, hdrops, rfl, ?_⟩
  exact (call_keyword_optional rfl rfl).1 _ hdrops

end Program

end PLZero
