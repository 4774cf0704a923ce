import PLZero.Proofs.Scoped
import Mathlib.Data.List.Nodup

/-! All declarations of a program, at every depth. In a well-scoped program no two of them have the same
full name, and full names can be written with dots. -/

namespace PLZero

variable {outer : List Layer} {l : Layer} {ds : List Decl} {p : Program} {path : List String} {paths : List (List String)} {e : ScopeEntry} {n : String}

/-- A declaration with the path of the scope that holds it. -/
abbrev Declared := List String × ScopeEntry

def Declared.full (d : Declared) : List String := d.1 ++ [d.2.name]

def Decl.declaredAll (outer : List Layer) : Layer → List Decl → List Declared
  | _, [] => []
  | l, d :: ds => (l.path, d.entry (l :: outer)) :: declaredAll outer (l.add (d.entry (l :: outer))) ds

mutual

/-- The declarations in a statement, in the order in which they are written. -/
def Stmt.declared (outer : List Layer) (l : Layer) : Stmt → List Declared
  | .assign .. | .read .. | .write .. | .call .. => []
  | .ifElse _ body elseIfs otherwise _ =>
    Stmt.declaredAll outer l body ++ ElseIf.declaredAll outer (Stmt.afterAll l body) elseIfs ++
      match otherwise with
      | some other => Stmt.declaredAll outer (ElseIf.afterAll (Stmt.afterAll l body) elseIfs) other
      | none => []
  | .whileDo _ body _ => Stmt.declaredAll outer l body
  | .forTo _ _ _ body _ => Stmt.declaredAll outer l body
  | .group body _ => Stmt.declaredAll outer l body
  | .procedure name body _ =>
    (l.path, .procedure name body) ::
      body.declared (l.add (.procedure name body) :: outer) (l.inside name)

def Stmt.declaredAll (outer : List Layer) (l : Layer) : List Stmt → List Declared
  | [] => []
  | s :: ss => s.declared outer l ++ Stmt.declaredAll outer (s.after l) ss

def ElseIf.declaredAll (outer : List Layer) (l : Layer) : List ElseIf → List Declared
  | [] => []
  | ⟨_, body, _⟩ :: others =>
    Stmt.declaredAll outer l body ++ ElseIf.declaredAll outer (Stmt.afterAll l body) others

def Block.declared (outer : List Layer) (l : Layer) : Block → List Declared
  | ⟨decls, stmt, _⟩ =>
    Decl.declaredAll outer l decls ++
      match stmt with
      | some s => s.declared outer (Decl.afterAll outer l decls)
      | none => []

end

def Block.declaredAll (outer : List Layer) : Layer → List Block → List Declared
  | _, [] => []
  | l, b :: bs => b.declared outer l ++ declaredAll outer (b.after outer l) bs

def Program.declared (p : Program) : List Declared := Block.declaredAll [] .initial p.blocks

def Declared.Words (d : Declared) : Prop := ∀ name ∈ d.full, IsWord name

/-- From the scope `l` to the scope `l'` the names `ds` were declared, all different and new in `l`. -/
structure Adds (l l' : Layer) (ds : List Declared) : Prop where
  path : l'.path = l.path
  entries : ∀ e ∈ l'.entries, e ∈ l.entries ∨ (l.path, e) ∈ ds
  keeps : ∀ name, l.declares name → l'.declares name
  fresh : ∀ d ∈ ds, ∃ name rest, d.full = l.path ++ name :: rest ∧ ¬ l.declares name ∧ l'.declares name
  nodup : (ds.map Declared.full).Nodup
  words : (∀ name ∈ l.path, IsWord name) → ∀ d ∈ ds, d.Words

namespace Adds

variable {l1 l2 : Layer} {ds ds' : List Declared}

theorem nil (l : Layer) : Adds l l [] := ⟨rfl, fun _ h => .inl h, fun _ h => h, by simp, by simp, by simp⟩

theorem trans (h : Adds l l1 ds) (h' : Adds l1 l2 ds') : Adds l l2 (ds ++ ds') where
  path := h'.path.trans h.path
  entries e he := by
    rcases h'.entries e he with he | he
    · exact (h.entries e he).imp_right (List.mem_append_left _)
    · exact .inr (List.mem_append_right _ (h.path ▸ he))
  keeps name hn := h'.keeps name (h.keeps name hn)
  fresh d hd := by
    rcases List.mem_append.mp hd with hd | hd
    · obtain ⟨name, rest, he, hn, hd⟩ := h.fresh d hd
      exact ⟨name, rest, he, hn, h'.keeps name hd⟩
    · obtain ⟨name, rest, he, hn, hd⟩ := h'.fresh d hd
      exact ⟨name, rest, h.path ▸ he, fun hl => hn (h.keeps name hl), hd⟩
  nodup := by
    rw [List.map_append, List.nodup_append]
    refine ⟨h.nodup, h'.nodup, ?_⟩
    intro x hx y hy hxy
    obtain ⟨d, hd, rfl⟩ := List.mem_map.mp hx
    obtain ⟨d', hd', rfl⟩ := List.mem_map.mp hy
    obtain ⟨name, rest, he, -, hdecl⟩ := h.fresh d hd
    obtain ⟨name', rest', he', hnew, -⟩ := h'.fresh d' hd'
    rw [he, he', h.path, List.append_cancel_left_eq, List.cons.injEq] at hxy
    exact hnew (hxy.1 ▸ hdecl)
  words hl d hd := by
    rcases List.mem_append.mp hd with hd | hd
    · exact h.words hl d hd
    · exact h'.words (h.path ▸ hl) d hd

theorem entry (e : ScopeEntry) (hp : IsWord e.name) (h : ¬ l.declares e.name) :
    Adds l (l.add e) [(l.path, e)] where
  path := rfl
  entries d hd := by
    rcases List.mem_cons.mp hd with rfl | hd
    · exact .inr List.mem_cons_self
    · exact .inl hd
  keeps name hn := Layer.declares_add.mpr (.inr hn)
  fresh d hd := by
    rw [List.mem_singleton] at hd
    subst hd
    exact ⟨e.name, [], rfl, h, Layer.declares_add.mpr (.inl rfl)⟩
  nodup := by simp
  words hl d hd name hname := by
    rw [List.mem_singleton] at hd
    subst hd
    rcases List.mem_append.mp hname with hname | hname
    · exact hl name hname
    · exact List.mem_singleton.mp hname ▸ hp

theorem procedure {name : String} {body : Block} (hp : IsWord name) (h : ¬ l.declares name)
    (hb : Adds (l.inside name) l1 ds) :
    Adds l (l.add (.procedure name body)) ((l.path, .procedure name body) :: ds) where
  path := rfl
  entries d hd := by
    rcases List.mem_cons.mp hd with rfl | hd
    · exact .inr List.mem_cons_self
    · exact .inl hd
  keeps name hn := Layer.declares_add.mpr (.inr hn)
  fresh d hd := by
    rcases List.mem_cons.mp hd with rfl | hd
    · exact ⟨name, [], rfl, h, Layer.declares_add.mpr (.inl rfl)⟩
    · obtain ⟨n, rest, he, -, -⟩ := hb.fresh d hd
      exact ⟨name, n :: rest, by simpa using he, h, Layer.declares_add.mpr (.inl rfl)⟩
  nodup := by
    rw [List.map_cons, List.nodup_cons]
    refine ⟨fun hm => ?_, hb.nodup⟩
    obtain ⟨d, hd, he'⟩ := List.mem_map.mp hm
    obtain ⟨n, rest, he, -, -⟩ := hb.fresh d hd
    rw [he] at he'
    simpa [Declared.full, ScopeEntry.name] using congrArg List.length he'
  words hl := by
    have hinside : ∀ n ∈ (l.inside name).path, IsWord n := by
      intro n hn
      rcases List.mem_append.mp hn with hn | hn
      · exact hl n hn
      · exact List.mem_singleton.mp hn ▸ hp
    intro d hd
    rcases List.mem_cons.mp hd with rfl | hd
    · exact hinside
    · exact hb.words hinside d hd

end Adds

theorem Decl.adds (h : Decl.ScopedAll outer l ds) :
    Adds l (Decl.afterAll outer l ds) (Decl.declaredAll outer l ds) := by
  induction ds generalizing l with
  | nil => exact .nil l
  | cons d ds ih =>
    obtain ⟨hp, hn, -, h⟩ := h
    rw [← d.entry_name (l :: outer)] at hp hn
    exact (Adds.entry _ hp hn).trans (ih h)

mutual

theorem Stmt.adds {outer : List Layer} {l : Layer} (s : Stmt) (h : s.Scoped outer l) :
    Adds l (s.after l) (s.declared outer l) := by
  match s with
  | .assign .. | .read .. | .write .. | .call .. => exact .nil l
  | .ifElse cond body elseIfs (some other) line =>
    obtain ⟨-, hb, he, ho⟩ := h
    exact ((Stmt.addsAll body hb).trans (ElseIf.addsAll elseIfs he)).trans (Stmt.addsAll other ho)
  | .ifElse cond body elseIfs none line =>
    obtain ⟨-, hb, he, -⟩ := h
    exact ((Stmt.addsAll body hb).trans (ElseIf.addsAll elseIfs he)).trans (.nil _)
  | .whileDo cond body line => exact Stmt.addsAll body h.2
  | .forTo counter start bound body line => exact Stmt.addsAll body h.2.2.2
  | .group body line => exact Stmt.addsAll body h
  | .procedure name body line => exact .procedure h.1 h.2.1 (Block.adds body h.2.2)

theorem Stmt.addsAll {outer : List Layer} {l : Layer} (ss : List Stmt) (h : Stmt.ScopedAll outer l ss) :
    Adds l (Stmt.afterAll l ss) (Stmt.declaredAll outer l ss) := by
  match ss with
  | [] => exact .nil l
  | s :: ss => exact (Stmt.adds s h.1).trans (Stmt.addsAll ss h.2)

theorem ElseIf.addsAll {outer : List Layer} {l : Layer} (es : List ElseIf) (h : ElseIf.ScopedAll outer l es) :
    Adds l (ElseIf.afterAll l es) (ElseIf.declaredAll outer l es) := by
  match es with
  | [] => exact .nil l
  | ⟨cond, body, line⟩ :: others =>
    exact (Stmt.addsAll body h.2.1).trans (ElseIf.addsAll others h.2.2)

theorem Block.adds {outer : List Layer} {l : Layer} (b : Block) (h : b.Scoped outer l) :
    Adds l (b.after outer l) (b.declared outer l) := by
  match b with
  | ⟨decls, some s, line⟩ => exact (Decl.adds h.1).trans (Stmt.adds s h.2)
  | ⟨decls, none, line⟩ => exact (Decl.adds h.1).trans (.nil _)

end

theorem Block.addsAll (bs : List Block) (h : Block.ScopedAll outer l bs) :
    ∃ l', Adds l l' (Block.declaredAll outer l bs) := by
  induction bs generalizing l with
  | nil => exact ⟨l, .nil l⟩
  | cons b bs ih =>
    obtain ⟨l', hl'⟩ := ih h.2
    exact ⟨l', (Block.adds b h.1).trans hl'⟩

/-- No two declarations of a well-scoped program have the same full name. -/
theorem Program.declared_nodup (h : p.Scoped) : (p.declared.map Declared.full).Nodup :=
  (Block.addsAll p.blocks h).elim fun _ h => h.nodup

theorem Program.declared_words (h : p.Scoped) : ∀ d ∈ p.declared, d.Words :=
  (Block.addsAll p.blocks h).elim fun _ h => h.words (by simp [Layer.initial])

/-- A path of words is known from its text. -/
theorem dotted_inj {path' : List String} (h : path ≠ []) (h' : path' ≠ [])
    (hp : ∀ name ∈ path, IsWord name) (hp' : ∀ name ∈ path', IsWord name)
    (heq : dotted path = dotted path') : path = path' := by
  have hsplit {xs : List String} (hne : xs ≠ []) (hx : ∀ name ∈ xs, IsWord name) :
      (dotted xs).toList.splitOn '.' = xs.map String.toList := by
    rw [dotted, String.toList_intercalate]
    refine List.splitOn_intercalate '.' ?_ (by simpa using hne)
    intro cs hcs
    obtain ⟨name, hname, rfl⟩ := List.mem_map.mp hcs
    exact (hx name hname).dot_notMem
  have hmap := (hsplit h hp).symm.trans ((congrArg (·.toList.splitOn '.') heq).trans (hsplit h' hp'))
  exact List.map_injective_iff.mpr (fun _ _ => String.toList_inj.mp) hmap

/-- The full names of the procedures among declarations. -/
def procedurePaths (ds : List Declared) : List (List String) :=
  (ds.filter (·.2.isProcedure)).map Declared.full

theorem procedurePaths_append (ds ds' : List Declared) :
    procedurePaths (ds ++ ds') = procedurePaths ds ++ procedurePaths ds' := by
  simp [procedurePaths]

/-- Paths that can be told apart by their texts. -/
structure Distinct (paths : List (List String)) : Prop where
  nodup : paths.Nodup
  nonempty : ∀ path ∈ paths, path ≠ []
  words : ∀ path ∈ paths, ∀ name ∈ path, IsWord name

theorem Distinct.dotted_ne {path' : List String} (h : Distinct paths)
    (hp : path ∈ paths) (hp' : path' ∈ paths) (hne : path ≠ path') : dotted path ≠ dotted path' :=
  fun heq => hne (dotted_inj (h.nonempty _ hp) (h.nonempty _ hp') (h.words _ hp) (h.words _ hp') heq)

theorem Distinct.nodup_dotted (h : Distinct paths) : (paths.map dotted).Nodup :=
  h.nodup.map_on fun _ hp _ hp' heq => by_contra fun hne => h.dotted_ne hp hp' hne heq

theorem Distinct.sublist {paths' : List (List String)} (h : Distinct paths') (hs : paths.Sublist paths') :
    Distinct paths :=
  ⟨hs.nodup h.nodup, fun path hp => h.nonempty path (hs.subset hp), fun path hp => h.words path (hs.subset hp)⟩

theorem Program.declared_distinct (h : p.Scoped) : Distinct (p.declared.map Declared.full) where
  nodup := p.declared_nodup h
  nonempty path hp := by
    obtain ⟨d, -, rfl⟩ := List.mem_map.mp hp
    simp [Declared.full]
  words path hp := by
    obtain ⟨d, hd, rfl⟩ := List.mem_map.mp hp
    exact p.declared_words h d hd

theorem Program.procedurePaths_distinct (h : p.Scoped) : Distinct (procedurePaths p.declared) :=
  (p.declared_distinct h).sublist ((List.filter_sublist).map _)

theorem Decl.mem_afterAll
    (h : e ∈ (Decl.afterAll outer l ds).entries) : e ∈ l.entries ∨ (l.path, e) ∈ Decl.declaredAll outer l ds := by
  induction ds generalizing l with
  | nil => exact .inl h
  | cons d ds ih =>
    rcases ih h with h | h
    · rcases List.mem_cons.mp h with rfl | h
      · exact .inr List.mem_cons_self
      · exact .inl h
    · exact .inr (List.mem_cons_of_mem _ h)

theorem Decl.mem_declaredAll {init : Option Initial} {line : Nat}
    (h : .var n init line ∈ ds) : (l.path, .var n) ∈ Decl.declaredAll outer l ds := by
  induction ds generalizing l with
  | nil => cases h
  | cons d ds ih =>
    rcases List.mem_cons.mp h with rfl | h
    · exact List.mem_cons_self
    · exact List.mem_cons_of_mem _ (ih h)

/-- What a block declares in its own scope, procedures apart, comes from its declarations. -/
theorem Block.mem_after {b : Block}
    (h : e ∈ (b.after outer l).entries) (he : e.isProcedure = false) :
    e ∈ l.entries ∨ (l.path, e) ∈ b.declared outer l := by
  match b with
  | ⟨decls, some s, line⟩ =>
    exact (Decl.mem_afterAll (Stmt.mem_of_mem_after h he)).imp_right fun h => List.mem_append_left _ h
  | ⟨decls, none, line⟩ => exact (Decl.mem_afterAll h).imp_right fun h => List.mem_append_left _ h

theorem Block.after_path (outer : List Layer) (l : Layer) (b : Block) : (b.after outer l).path = l.path := by
  obtain ⟨decls, stmt, line⟩ := b
  cases stmt with
  | some s => exact (Stmt.after_path _ s).trans (Decl.afterAll_path outer l decls)
  | none => exact Decl.afterAll_path outer l decls

theorem Block.afterAll_path (outer : List Layer) (l : Layer) (bs : List Block) :
    (Block.afterAll outer l bs).path = l.path := by
  induction bs generalizing l with
  | nil => rfl
  | cons b bs ih => rw [Block.afterAll, ih, Block.after_path]

theorem Block.mem_afterAll {bs : List Block}
    (h : e ∈ (Block.afterAll outer l bs).entries) (he : e.isProcedure = false) :
    e ∈ l.entries ∨ (l.path, e) ∈ Block.declaredAll outer l bs := by
  induction bs generalizing l with
  | nil => exact .inl h
  | cons b bs ih =>
    rcases ih h with h | h
    · exact (Block.mem_after h he).imp_right fun h => List.mem_append_left _ h
    · rw [Block.after_path] at h
      exact .inr (List.mem_append_right _ h)

/-- The variable is declared by the body of a procedure that is itself among the declarations. -/
def Owned (ds : List Declared) (path : List String) (n : String) : Prop :=
  ∃ outside name body, path = outside ++ [name] ∧ (outside, .procedure name body) ∈ ds ∧
    ∃ init line, Decl.var n init line ∈ body.decls

theorem Owned.mono {ds ds' : List Declared} (h : Owned ds path n)
    (hds : ds ⊆ ds') : Owned ds' path n := by
  obtain ⟨outside, name, body, hpath, hmem, hvar⟩ := h
  exact ⟨outside, name, body, hpath, hds hmem, hvar⟩

theorem Decl.var_of_declaredAll
    (h : (path, .var n) ∈ Decl.declaredAll outer l ds) :
    path = l.path ∧ ∃ init line, Decl.var n init line ∈ ds := by
  induction ds generalizing l with
  | nil => cases h
  | cons d ds ih =>
    rcases List.mem_cons.mp h with heq | h
    · match d, heq with
      | .var name init line, heq =>
        cases heq
        exact ⟨rfl, init, line, List.mem_cons_self⟩
    · obtain ⟨hpath, init, line, hmem⟩ := ih h
      exact ⟨hpath, init, line, List.mem_cons_of_mem _ hmem⟩

mutual

/-- A statement declares variables only in the procedures that it declares. -/
theorem Stmt.owned {outer : List Layer} {l : Layer} {path : List String} {n : String} (s : Stmt)
    (h : (path, .var n) ∈ s.declared outer l) : Owned (s.declared outer l) path n := by
  match s with
  | .assign .. | .read .. | .write .. | .call .. => cases h
  | .ifElse _ body elseIfs (some other) _ =>
    rcases List.mem_append.mp h with h | h
    · rcases List.mem_append.mp h with h | h
      · exact (Stmt.ownedAll body h).mono fun _ h => List.mem_append_left _ (List.mem_append_left _ h)
      · exact (ElseIf.ownedAll elseIfs h).mono fun _ h => List.mem_append_left _ (List.mem_append_right _ h)
    · exact (Stmt.ownedAll other h).mono fun _ h => List.mem_append_right _ h
  | .ifElse _ body elseIfs none _ =>
    rcases List.mem_append.mp h with h | h
    · rcases List.mem_append.mp h with h | h
      · exact (Stmt.ownedAll body h).mono fun _ h => List.mem_append_left _ (List.mem_append_left _ h)
      · exact (ElseIf.ownedAll elseIfs h).mono fun _ h => List.mem_append_left _ (List.mem_append_right _ h)
    · cases h
  | .whileDo _ body _ => exact Stmt.ownedAll body h
  | .forTo _ _ _ body _ => exact Stmt.ownedAll body h
  | .group body _ => exact Stmt.ownedAll body h
  | .procedure name body line =>
    rcases List.mem_cons.mp h with heq | h
    · cases heq
    · rcases Block.owned body h with ⟨rfl, hvar⟩ | h
      · exact ⟨l.path, name, body, rfl, List.mem_cons_self, hvar⟩
      · exact h.mono fun _ h => List.mem_cons_of_mem _ h

theorem Stmt.ownedAll {outer : List Layer} {l : Layer} {path : List String} {n : String} (ss : List Stmt)
    (h : (path, .var n) ∈ Stmt.declaredAll outer l ss) : Owned (Stmt.declaredAll outer l ss) path n := by
  match ss with
  | [] => cases h
  | s :: ss =>
    rcases List.mem_append.mp h with h | h
    · exact (Stmt.owned s h).mono fun _ h => List.mem_append_left _ h
    · exact (Stmt.ownedAll ss h).mono fun _ h => List.mem_append_right _ h

theorem ElseIf.ownedAll {outer : List Layer} {l : Layer} {path : List String} {n : String} (es : List ElseIf)
    (h : (path, .var n) ∈ ElseIf.declaredAll outer l es) : Owned (ElseIf.declaredAll outer l es) path n := by
  match es with
  | [] => cases h
  | ⟨_, body, _⟩ :: others =>
    rcases List.mem_append.mp h with h | h
    · exact (Stmt.ownedAll body h).mono fun _ h => List.mem_append_left _ h
    · exact (ElseIf.ownedAll others h).mono fun _ h => List.mem_append_right _ h

theorem Block.owned {outer : List Layer} {l : Layer} {path : List String} {n : String} (b : Block)
    (h : (path, .var n) ∈ b.declared outer l) :
    (path = l.path ∧ ∃ init line, Decl.var n init line ∈ b.decls) ∨ Owned (b.declared outer l) path n := by
  match b with
  | ⟨decls, some s, line⟩ =>
    rcases List.mem_append.mp h with h | h
    · exact .inl (Decl.var_of_declaredAll h)
    · exact .inr ((Stmt.owned s h).mono fun _ h => List.mem_append_right _ h)
  | ⟨decls, none, line⟩ =>
    rcases List.mem_append.mp h with h | h
    · exact .inl (Decl.var_of_declaredAll h)
    · cases h

end

theorem Block.ownedAll (bs : List Block)
    (h : (path, .var n) ∈ Block.declaredAll outer l bs) :
    path = l.path ∨ Owned (Block.declaredAll outer l bs) path n := by
  induction bs generalizing l with
  | nil => cases h
  | cons b bs ih =>
    rcases List.mem_append.mp h with h | h
    · exact (Block.owned b h).imp And.left fun h => h.mono fun _ h => List.mem_append_left _ h
    · refine (ih h).imp (fun h => h.trans (Block.after_path outer l b)) fun h => h.mono fun _ h => ?_
      exact List.mem_append_right _ h

/-- Declarations that can be told apart by the texts of their full names, and in which the variables of a
procedure are those that its body declares. -/
structure Catalogue (ds : List Declared) : Prop where
  distinct : ∀ d ∈ ds, ∀ d' ∈ ds, dotted d.full = dotted d'.full → d = d'
  own : ∀ {path name body n}, (path, .procedure name body) ∈ ds → (path ++ [name], .var n) ∈ ds →
    ∃ init line, Decl.var n init line ∈ body.decls

theorem Program.catalogue (h : p.Scoped) : Catalogue p.declared := by
  have hinj : ∀ d ∈ p.declared, ∀ d' ∈ p.declared, d.full = d'.full → d = d' :=
    fun d hd d' hd' heq => List.inj_on_of_nodup_map (p.declared_nodup h) hd hd' heq
  refine ⟨fun d hd d' hd' heq => hinj d hd d' hd' ?_, fun {path name body n} hproc hvar => ?_⟩
  · exact dotted_inj (by simp [Declared.full]) (by simp [Declared.full]) (p.declared_words h d hd)
      (p.declared_words h d' hd') heq
  · rcases Block.ownedAll p.blocks hvar with hnil | ⟨path', name', body', heq, hproc', hdecl⟩
    · simp [Layer.initial] at hnil
    · obtain ⟨rfl, hname⟩ := List.append_inj' heq rfl
      obtain rfl := List.singleton_inj.mp hname
      cases hinj _ hproc _ hproc' rfl
      exact hdecl

end PLZero
