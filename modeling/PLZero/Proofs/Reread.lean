import PLZero.Proofs.Accepting
import PLZero.Proofs.Printed
import PLZero.Proofs.ProgramShape

/-! A program that was read is read again from what it is printed as: the printed tokens derive it. -/

namespace PLZero

open Grammar

section

variable (style : Parens) (n : Nat)

theorem Decl.print_derivations {ds : List Decl} (hs : ∀ d ∈ ds, d.shaped = true) :
    Decl.Derivations (ds.flatMap (Decl.print n)) (ds.map (Decl.onLine n)) := by
  have hinitial (i : Initial) : i.Derivation (i.print n) := by
    cases i with
    | number v => exact .number rfl (Text.readWord_ofWord v)
    | constant name => exact .constant rfl
  have hsection (d : Decl) (hd : d.shaped = true) : Decl.Section (d.print n) [d.onLine n] := by
    cases d with
    | var name init line =>
      cases init with
      | none => exact @Section.var _ _ [_] _ rfl (.one (.plain rfl)) rfl
      | some i => exact @Section.var _ _ [_, _, _] _ rfl (.one (.initial rfl ⟨rfl, rfl⟩ (hinitial i))) rfl
    | const name init line =>
      cases init with
      | none => cases hd
      | some i => exact @Section.const _ _ [_, _, _] _ rfl (.one (.mk rfl ⟨rfl, rfl⟩ (hinitial i))) rfl
  induction ds with
  | nil => exact .nil
  | cons d ds ih =>
    obtain ⟨hd, hs⟩ := List.forall_mem_cons.mp hs
    exact .cons (hsection d hd) (ih hs)

theorem Stmt.print_starts (s : Stmt) : ∃ t us, s.print style n = t :: us ∧ t.line = n := by
  cases s <;> rw [Stmt.print] <;> exact ⟨_, _, rfl, rfl⟩

theorem Decl.print_starts {ds : List Decl} (hne : ds ≠ []) :
    ∃ t us, ds.flatMap (Decl.print n) = t :: us ∧ t.line = n := by
  cases ds with
  | nil => exact absurd rfl hne
  | cons d ds =>
    cases d with
    | var name init line | const name init line => cases init <;> exact ⟨_, _, rfl, rfl⟩

variable {style n}

theorem Expr.print_derives (e : Expr) : (e.onLine n).Derivation .expression (e.print style n) :=
  (e.print_derivation style n).loosen (Nat.zero_le _)

theorem Grammar.listed_names {ids : List String} (hne : ids ≠ []) :
    Listed Name (separated n (ids.map fun name => [⟨.identifier, name, n⟩])) ids := by
  have h := listed_separated n (fun name : String => Name.mk (t := ⟨.identifier, name, n⟩) rfl) hne
  rwa [List.map_id'] at h

theorem Stmt.any_isIf_onLineAll (ss : List Stmt) :
    (Stmt.onLineAll n ss).head?.any Stmt.isIf = ss.head?.any Stmt.isIf := by
  cases ss with
  | nil => rfl
  | cons s ss => cases s <;> rfl

mutual

/-- The derivation is that of the tokens which the statement was first read from. It is needed for what the
tree does not show: lists that are not empty, and no `if` in front of a last branch. -/
theorem Stmt.Derivation.printed {names₀ : List String} {next₀ : Option Token} {ts : List Token} {s : Stmt}
    (h : s.Derivation names₀ next₀ ts) (names : List String) (next : Option Token) :
    (s.onLine n).Derivation names next (s.print style n) := by
  cases h with
  | assign =>
    rw [Stmt.print, Stmt.onLine]
    exact .assign rfl rfl (Expr.print_derives _) rfl
  | bareCall | call =>
    rw [Stmt.print, Stmt.onLine]
    exact .call rfl rfl rfl
  | ifElse _ _ _ hb he ho =>
    rw [Stmt.print, Stmt.onLine]
    exact .ifElse rfl (Expr.print_derives _) rfl (Stmt.Derivations.printed hb _) (ElseIf.Derivations.printed he _)
      (Stmt.Last.printed ho _) rfl (.present rfl)
  | whileDo _ _ _ hb =>
    rw [Stmt.print, Stmt.onLine]
    exact .whileDo rfl (Expr.print_derives _) rfl (Stmt.Derivations.printed hb _) rfl (.present rfl)
  | forTo _ _ _ _ _ _ _ hb =>
    rw [Stmt.print, Stmt.onLine]
    exact .forTo rfl rfl rfl (Expr.print_derives _) rfl (Expr.print_derives _) rfl (Stmt.Derivations.printed hb _) rfl
      (.present rfl)
  | read _ _ hi =>
    rw [Stmt.print, Stmt.onLine]
    exact .read rfl rfl (listed_names hi.ne_nil) rfl rfl
  | readOne =>
    rw [Stmt.print, Stmt.onLine]
    exact .read rfl rfl (listed_names (by simp)) rfl rfl
  | write _ _ hv | writeBare _ hv =>
    rw [Stmt.print, Stmt.onLine]
    exact .write rfl rfl (listed_separated n Expr.print_derives hv.ne_nil) rfl rfl
  | group _ hb =>
    rw [Stmt.print, Stmt.onLine]
    exact .group rfl (Stmt.Derivations.printed hb _) rfl (.present rfl)
  | procedure _ _ _ hb =>
    rw [Stmt.print, Stmt.onLine]
    refine .procedure rfl rfl rfl (Block.Derivation.printed hb _ _ fun _ t ht => ?_) (.present rfl)
    cases ht
    simp [BeginsPart]

theorem Stmt.Derivations.printed {names₀ : List String} {ts : List Token} {ss : List Stmt}
    (h : Stmt.Derivations names₀ ts ss) (names : List String) :
    Stmt.Derivations names (Stmt.printAll style n ss) (Stmt.onLineAll n ss) := by
  cases h with
  | nil =>
    rw [Stmt.printAll, Stmt.onLineAll]
    exact .nil
  | cons h hs =>
    rw [Stmt.printAll, Stmt.onLineAll]
    exact .cons (Stmt.Derivation.printed h _ _) (Stmt.Derivations.printed hs _)

theorem ElseIf.Derivations.printed {names₀ : List String} {ts : List Token} {es : List ElseIf}
    (h : ElseIf.Derivations names₀ ts es) (names : List String) :
    ElseIf.Derivations names (ElseIf.printAll style n es) (ElseIf.onLineAll n es) := by
  cases h with
  | nil =>
    rw [ElseIf.printAll, ElseIf.onLineAll]
    exact .nil
  | cons h hs =>
    obtain ⟨_, _, _, _, hb⟩ := h
    rw [ElseIf.printAll, ElseIf.onLineAll]
    exact .cons (.mk rfl rfl (Expr.print_derives _) rfl (Stmt.Derivations.printed hb _))
      (ElseIf.Derivations.printed hs _)

theorem Stmt.Last.printed {names₀ : List String} {ts : List Token} {o : Option (List Stmt)}
    (h : Stmt.Last names₀ ts o) (names : List String) :
    Stmt.Last names (Stmt.printLast style n o) (Stmt.onLineLast n o) := by
  cases h with
  | absent =>
    rw [Stmt.printLast, Stmt.onLineLast]
    exact .absent
  | present _ hn h =>
    rw [Stmt.printLast, Stmt.onLineLast]
    have h' := Stmt.Derivations.printed h names
    exact .present rfl (h'.not_if_iff.mpr ((Stmt.any_isIf_onLineAll _).trans (h.not_if_iff.mp hn))) h'

theorem Block.Derivation.printed {names₀ : List String} {next₀ : Option Token} {ts : List Token} {b : Block}
    (h : b.Derivation names₀ next₀ ts) (names : List String) (next : Option Token)
    (hn : b.stmt = none → ∀ t ∈ next, ¬ BeginsPart t) : (b.onLine n).Derivation names next (b.print style n) := by
  cases h with
  | @decls _ _ _ _ ds hd =>
    have hds := Decl.print_derivations n (List.all_eq_true.mp hd.carries.2)
    obtain ⟨t, us, heq, rfl⟩ := Decl.print_starts n hd.starts.2
    rw [Block.print, Block.onLine, List.append_nil, heq]
    exact .decls (heq ▸ hds) (hn rfl)
  | @stmt _ _ _ _ _ ds s hds hs =>
    have hhead : ∃ t us, ds.flatMap (Decl.print n) ++ s.print style n = t :: us ∧ t.line = n := by
      cases ds with
      | nil => exact s.print_starts style n
      | cons d ds =>
        obtain ⟨t, us, heq, ht⟩ := Decl.print_starts n (List.cons_ne_nil d ds)
        exact ⟨t, _, congrArg (· ++ _) heq, ht⟩
    obtain ⟨t, us, heq, hline⟩ := hhead
    rw [Block.print, Block.onLine]
    have hd := Block.Derivation.stmt (Decl.print_derivations n (List.all_eq_true.mp hds.carries.2))
      (Stmt.Derivation.printed hs names next) (congrArg List.head? heq)
    rwa [hline] at hd

end

theorem Block.Derivations.printed {names₀ : List String} {ts : List Token} {bs : List Block}
    (h : Block.Derivations names₀ ts bs) (names : List String) :
    Block.Derivations names (bs.flatMap (Block.print style n)) (bs.map (Block.onLine n)) := by
  induction h generalizing names with
  | last h =>
    rw [List.flatMap_singleton]
    exact .last (h.printed _ _ nofun)
  | cons h hr ih =>
    refine .cons (h.printed _ _ fun hnone => ?_) (ih _)
    obtain ⟨t, us, rfl, ht, -⟩ := hr.starts
    cases h with
    | decls _ hn => exact absurd ht (hn t rfl)
    | stmt => cases hnone

/-- A derived program is read again from what it is printed as. -/
theorem Program.Derivation.rereads {ts : List Token} {p : Program} (h : p.Derivation ts) :
    Program.ofTokens (p.print style n) = .ok (p.onLine n) := by
  cases h with
  | @mk _ _ _ bs h _ =>
    have hd : Block.Derivations [] (bs.flatMap (Block.print style n)) (bs.map (Block.onLine n)) := h.printed []
    obtain ⟨t, us, heq, -, hline⟩ := hd.starts
    obtain rfl : n = t.line := by
      cases bs with
      | nil => cases heq
      | cons b bs =>
        obtain ⟨ds, stmt, line⟩ := b
        exact hline _ rfl
    rw [heq] at hd
    have hend : Reader.Ahead (·.kind = .eof) [⟨.eof, "", t.line⟩] := .cons rfl
    have hread := (Program.Derivation.mk hd (.absent nofun)).read hend
    rwa [List.append_nil, ← heq] at hread

end

/-- What was read as a program is read as the same one from its tokens, with either style of parentheses. -/
theorem Program.print_rereads {tokens : List Token} {p : Program} (h : Program.ofTokens tokens = .ok p) (n : Nat) :
    Program.ofTokens (p.print .all n) = .ok (p.onLine n) ∧
      Program.ofTokens (p.print .needed n) = .ok (p.onLine n) := by
  obtain ⟨ts, -, -, -, -, hd⟩ := Program.ofTokens_ok h
  exact ⟨hd.rereads, hd.rereads⟩

set_option maxRecDepth 1500 in
/-- A procedure without a statement, a branch whose `else` has an `if` further on, a written list that starts
with a parenthesis, and declarations as the last block. -/
theorem Program.print_rereads_nested : ∃ p,
    Program.ofTokens (Scan.ofSource ("procedure p; var x; ;\nif 1 < 2 then p; else begin end if 0 then endif\n" ++
      "write (1) - (2 - 3) * 4, 5; endif const c = 7;")).tokens = .ok p ∧
    Program.ofTokens (p.print .all 1) = .ok (p.onLine 1) ∧
    Program.ofTokens (p.print .needed 1) = .ok (p.onLine 1) := by
  refine ⟨?p, ?read, Program.print_rereads ?read 1⟩
  case read => rfl

end PLZero
