import PLZero.Proofs.Emitted
import PLZero.Proofs.ModuleRules
import PLZero.Proofs.ModuleWriting

/-! The stack module of a well-scoped program is well-formed: the code of every part of the program uses the names in
sight there as what they were declared. So the text for a program read from source text is a valid module. -/

namespace PLZero

variable {A : List String → Access} {D : List Declared} {outer : List Layer} {l : Layer}

namespace StackModule

variable {a : Access} {labels : List Label}

theorem Code.validAll_iff {cs : List Code} :
    Code.ValidAll a labels cs ↔ ∀ c ∈ cs, c.Valid a labels := by
  induction cs with
  | nil => simp [Code.ValidAll]
  | cons c cs ih => rw [Code.ValidAll, ih, List.forall_mem_cons]

theorem Code.validAll_append {cs cs' : List Code} :
    Code.ValidAll a labels (cs ++ cs') ↔ Code.ValidAll a labels cs ∧ Code.ValidAll a labels cs' := by
  simp only [Code.validAll_iff, List.forall_mem_append]

theorem valid_ifElse {cond : Folded} {body : List Code} {o : Option (List Code)}
    (hc : cond.Over a.get) (hb : Code.ValidAll a labels body) (ho : ∀ other ∈ o, Code.ValidAll a labels other) :
    (Code.ifElse cond body o).Valid a labels := by
  cases o with
  | none => exact ⟨hc, hb, trivial⟩
  | some other => exact ⟨hc, hb, ho other rfl⟩

/-- The body of a loop can branch behind it, and back to its start. -/
theorem valid_loopBlock {n : Nat} {body : List Code}
    (h : Code.ValidAll a (.again n :: .behind n :: labels) body) : (loopBlock n body).Valid a labels :=
  ⟨Code.validAll_append.mpr ⟨h, List.mem_cons_self, trivial⟩, trivial⟩

/-- What is declared with this path may be used as what it is. -/
def Access.Admits (a : Access) (path : List String) : ScopeEntry → Prop
  | .var name => a.get (qualify path name) ∧ a.set (qualify path name)
  | .const name _ => a.get (qualify path name)
  | .procedure name _ => a.call (qualify path name)

def Access.Sees (a : Access) (layers : List Layer) : Prop := ∀ l ∈ layers, ∀ e ∈ l.entries, a.Admits l.path e

/-- What code may do, by the path of its scope: what is declared may be used there, and what may be used in a scope
may be used in the scopes inside it. -/
structure Allows (A : List String → Access) (D : List Declared) : Prop where
  admits : ∀ d ∈ D, (A d.1).Admits d.1 d.2
  inside : ∀ {path home : List String} {e : ScopeEntry} (name : String), (A path).Admits home e →
    (A (path ++ [name])).Admits home e

/-- The function of a declared procedure: it saves variables of its own, and its code does what it may. -/
structure Function.Implements (A : List String → Access) (D : List Declared) (d : Declared) (f : Function) : Prop where
  id : f.id = dotted d.full
  saved : f.saved = d.saved
  own : ∀ id ∈ f.saved, ∃ n, (d.full, .var n) ∈ D ∧ id = qualify d.full n
  body : Code.ValidAll (A d.full) [] f.body

/-- Every procedure among the declarations `ds` has a function. -/
def Defines (A : List String → Access) (D : List Declared) (F : List Function) (ds : List Declared) : Prop :=
  ∀ d ∈ ds, d.2.isProcedure = true → ∃ f ∈ F, f.Implements A D d

section

variable {F : List Function} {ds ds' : List Declared} {l' : Layer}

theorem Function.Implements.valid {d : Declared} {f : Function} (h : f.Implements A D d) (hA : Allows A D) :
    f.Valid (A d.full) := by
  refine ⟨fun id hid => ?_, h.body⟩
  obtain ⟨n, hn, rfl⟩ := h.own id hid
  exact (hA.admits _ hn).2

theorem Allows.adds (hA : Allows A D) (h : (A l.path).Sees (l :: outer)) (hl : Adds l l' ds) (hds : ds ⊆ D) :
    (A l'.path).Sees (l' :: outer) := by
  rw [hl.path]
  refine List.forall_mem_cons.mpr ⟨fun e he => ?_, fun k hk => h k (List.mem_cons_of_mem _ hk)⟩
  rw [hl.path]
  rcases hl.entries e he with he | he
  · exact h l List.mem_cons_self e he
  · exact hA.admits _ (hds he)

theorem Allows.inside_sees (hA : Allows A D) (h : (A l.path).Sees (l :: outer)) (name : String) :
    (A (l.inside name).path).Sees (l.inside name :: l :: outer) :=
  List.forall_mem_cons.mpr ⟨by simp, fun k hk e he => hA.inside name (h k hk e he)⟩

theorem Defines.append (h : Defines A D F ds) (h' : Defines A D F ds') : Defines A D F (ds ++ ds') :=
  List.forall_mem_append.mpr ⟨h, h'⟩

theorem Defines.nil : Defines A D F [] := List.forall_mem_nil _

end

namespace Access

variable {layers : List Layer} {name : String}

theorem Sees.lookup {f : Found} (h : a.Sees layers) (hf : lookup layers name = some f) :
    f.entry.name = name ∧ idOf layers name = qualify f.home.path name ∧ a.Admits f.home.path f.entry := by
  obtain ⟨hname, l, hdrop, hpath, hsuffix, rest, hrest⟩ := lookup_home hf
  have hl : l ∈ layers := List.mem_of_mem_drop (hdrop ▸ List.mem_cons_self)
  refine ⟨hname, by rw [idOf, hf, Option.elim_some], hpath ▸ h l hl f.entry ?_⟩
  exact hsuffix.subset (hrest ▸ List.mem_cons_self)

theorem Sees.assignable (h : a.Sees layers) (hn : Assignable layers name) :
    a.get (idOf layers name) ∧ a.set (idOf layers name) := by
  obtain ⟨f, hf, he⟩ := hn
  obtain ⟨-, hid, hadmits⟩ := h.lookup hf
  rw [he] at hadmits
  rwa [hid]

theorem Sees.callable (h : a.Sees layers) (hn : Callable layers name) :
    a.call (idOf layers name) := by
  obtain ⟨f, body, hf, he⟩ := hn
  obtain ⟨-, hid, hadmits⟩ := h.lookup hf
  rw [he] at hadmits
  rwa [hid]

theorem Sees.folded {e : Expr} (h : a.Sees layers) (he : e.Scoped layers) : (e.folded layers).Over a.get := by
  induction e with
  | binary op left right line ihl ihr => exact ⟨ihl he.1, ihr he.2⟩
  | literal value line => trivial
  | ident name line =>
    obtain ⟨f, hf, hb⟩ := he
    obtain ⟨hname, hid, hadmits⟩ := h.lookup hf
    rw [Expr.folded, Folded.Over, hid, ← hname]
    cases hentry : f.entry with
    | var n =>
      rw [hentry] at hadmits
      exact hadmits.1
    | const n v =>
      rw [hentry] at hadmits
      exact hadmits
    | procedure n body =>
      rw [hentry] at hb
      cases hb

end Access

end StackModule

open StackModule

/-- Declarations in front of a statement declare no procedure. -/
theorem Decl.defines_declaredAll {F : List Function}
    (ds : List Decl) : Defines A D F (Decl.declaredAll outer l ds) := by
  induction ds generalizing l with
  | nil => exact .nil
  | cons d ds ih =>
    refine List.forall_mem_cons.mpr ⟨fun hproc => ?_, ih⟩
    cases d <;> cases hproc

theorem Decl.valid_setsAll
    {ds : List Decl} (hA : Allows A D) (hd : Decl.declaredAll outer l ds ⊆ D) (labels : List Label) :
    Code.ValidAll (A l.path) labels (Decl.setsAll outer l ds) := by
  induction ds generalizing l with
  | nil => trivial
  | cons d ds ih =>
    obtain ⟨hentry, hds⟩ := List.cons_subset.mp hd
    refine Code.validAll_append.mpr ⟨?_, ih hds⟩
    match d with
    | .var name none line => trivial
    | .var name (some init) line => exact ⟨⟨(hA.admits _ hentry).2, trivial⟩, trivial⟩
    | .const name init line => trivial

theorem Decl.own_of_savedAll {ds : List Decl}
    (hd : Decl.declaredAll outer l ds ⊆ D) :
    ∀ id ∈ Decl.savedAll true l.path ds, ∃ n, (l.path, .var n) ∈ D ∧ id = qualify l.path n := by
  intro id hid
  obtain ⟨d, hmem, hid⟩ := List.mem_flatMap.mp hid
  match d, hmem, hid with
  | .var name init line, hmem, hid => exact ⟨name, hd (Decl.mem_declaredAll hmem), List.mem_singleton.mp hid⟩

mutual

/-- Where all that a statement declares may be used, its code is valid, and the procedures declared in it have
functions. -/
theorem Stmt.valid {A : List String → Access} {D : List Declared} {F : List Function} {outer : List Layer} {l : Layer}
    {codes : List Code} (hA : Allows A D) (s : Stmt) (he : s.Emitted F outer l codes) (hs : s.Scoped outer l)
    (hsee : (A l.path).Sees (l :: outer)) (hd : s.declared outer l ⊆ D) :
    (∀ labels, Code.ValidAll (A l.path) labels codes) ∧ Defines A D F (s.declared outer l) := by
  match s with
  | .assign name value line =>
    obtain rfl := he
    exact ⟨fun labels => ⟨⟨(hsee.assignable hs.1).2, hsee.folded hs.2⟩, trivial⟩, .nil⟩
  | .ifElse cond body elseIfs (some other) line =>
    obtain ⟨b, o, hb, ho, rfl⟩ := he
    obtain ⟨hsc, hsb, hse, hso⟩ := hs
    rw [Stmt.declared, List.append_assoc] at hd ⊢
    obtain ⟨hdb, hdo⟩ := List.append_subset.mp hd
    obtain ⟨hde, hdo⟩ := List.append_subset.mp hdo
    obtain ⟨hvb, hfb⟩ := Stmt.validAll hA body hb hsb hsee hdb
    have hsee' := hA.adds hsee (Stmt.addsAll body hsb) hdb
    have hlast : ∀ o, Stmt.LastEmitted F outer (ElseIf.afterAll (Stmt.afterAll l body) elseIfs) (some other) o →
        (∀ labels, ∀ b ∈ o, Code.ValidAll (A (Stmt.afterAll l body).path) labels b) ∧
          Defines A D F (Stmt.declaredAll outer (ElseIf.afterAll (Stmt.afterAll l body) elseIfs) other) := by
      rintro o ⟨b, hb, rfl⟩
      obtain ⟨hv, hf⟩ := Stmt.validAll hA other hb hso (hA.adds hsee' (ElseIf.addsAll elseIfs hse) hde) hdo
      rw [ElseIf.afterAll_path] at hv
      refine ⟨fun labels b' hb' => ?_, hf⟩
      cases hb'
      exact hv labels
    obtain ⟨hve, hfe⟩ := ElseIf.validAll hA elseIfs ho hse hsee' hde hlast
    rw [Stmt.afterAll_path] at hve
    exact ⟨fun labels => ⟨valid_ifElse (hsee.folded hsc) (hvb labels) (hve labels), trivial⟩, hfb.append hfe⟩
  | .ifElse cond body elseIfs none line =>
    obtain ⟨b, o, hb, ho, rfl⟩ := he
    obtain ⟨hsc, hsb, hse, -⟩ := hs
    rw [Stmt.declared, List.append_assoc] at hd ⊢
    obtain ⟨hdb, hde⟩ := List.append_subset.mp hd
    obtain ⟨hde, -⟩ := List.append_subset.mp hde
    obtain ⟨hvb, hfb⟩ := Stmt.validAll hA body hb hsb hsee hdb
    have hlast : ∀ o, Stmt.LastEmitted F outer (ElseIf.afterAll (Stmt.afterAll l body) elseIfs) none o →
        (∀ labels, ∀ b ∈ o, Code.ValidAll (A (Stmt.afterAll l body).path) labels b) ∧ Defines A D F [] := by
      rintro o rfl
      exact ⟨fun _ => nofun, .nil⟩
    obtain ⟨hve, hfe⟩ :=
      ElseIf.validAll hA elseIfs ho hse (hA.adds hsee (Stmt.addsAll body hsb) hdb) hde hlast
    rw [Stmt.afterAll_path] at hve
    exact ⟨fun labels => ⟨valid_ifElse (hsee.folded hsc) (hvb labels) (hve labels), trivial⟩, hfb.append hfe⟩
  | .whileDo cond body line =>
    obtain ⟨n, b, hb, rfl⟩ := he
    obtain ⟨hvb, hfb⟩ := Stmt.validAll hA body hb hs.2 hsee hd
    refine ⟨fun labels => ⟨valid_loopBlock ⟨⟨?_, hsee.folded hs.1⟩, hvb _⟩, trivial⟩, hfb⟩
    exact List.mem_cons_of_mem _ List.mem_cons_self
  | .forTo counter start bound body line =>
    obtain ⟨n, b, hb, rfl⟩ := he
    obtain ⟨hsa, hss, hsbd, hsb⟩ := hs
    obtain ⟨hvb, hfb⟩ := Stmt.validAll hA body hb hsb hsee hd
    have hcounter := hsee.assignable hsa
    have hbody (labels : List Label) :
        Code.ValidAll (A l.path) labels (b ++ [.increment (idOf (l :: outer) counter)]) :=
      Code.validAll_append.mpr ⟨hvb labels, hcounter, trivial⟩
    refine ⟨fun labels => ⟨⟨hcounter.2, hsee.folded hss⟩, valid_loopBlock ⟨⟨?_, ?_⟩, hbody _⟩, trivial⟩, hfb⟩
    · exact List.mem_cons_of_mem _ List.mem_cons_self
    · exact ⟨hcounter.1, hsee.folded hsbd⟩
  | .read names line =>
    obtain rfl := he
    refine ⟨fun labels => Code.validAll_iff.mpr (List.forall_mem_map.mpr fun name hname => ?_), .nil⟩
    exact (hsee.assignable (hs name hname)).2
  | .write values line =>
    obtain rfl := he
    refine ⟨fun labels => Code.validAll_iff.mpr (List.forall_mem_map.mpr fun e hmem => ?_), .nil⟩
    exact hsee.folded (hs e hmem)
  | .call name line =>
    obtain rfl := he
    exact ⟨fun labels => ⟨hsee.callable hs, trivial⟩, .nil⟩
  | .group body line => exact Stmt.validAll hA body he hs hsee hd
  | .procedure name body line =>
    obtain ⟨rfl, b, hb, hmem⟩ := he
    obtain ⟨hproc, hdb⟩ := List.cons_subset.mp hd
    have hsee' : (A (l.add (.procedure name body)).path).Sees (l.add (.procedure name body) :: outer) :=
      hA.adds hsee (Adds.entry (.procedure name body) hs.1 hs.2.1) (List.cons_subset.mpr ⟨hproc, List.nil_subset _⟩)
    obtain ⟨hsaved, hvb, hfb⟩ := Block.valid hA body hb hs.2.2 (hA.inside_sees hsee' name) hdb
    refine ⟨fun labels => trivial, List.forall_mem_cons.mpr ⟨fun _ => ?_, hfb⟩⟩
    -- the loops around a procedure are not around its function
    exact ⟨_, hmem, rfl, rfl, hsaved, hvb []⟩

theorem Stmt.validAll {A : List String → Access} {D : List Declared} {F : List Function} {outer : List Layer}
    {l : Layer} {codes : List Code} (hA : Allows A D) (ss : List Stmt) (he : Stmt.EmittedAll F outer l ss codes)
    (hs : Stmt.ScopedAll outer l ss) (hsee : (A l.path).Sees (l :: outer)) (hd : Stmt.declaredAll outer l ss ⊆ D) :
    (∀ labels, Code.ValidAll (A l.path) labels codes) ∧ Defines A D F (Stmt.declaredAll outer l ss) := by
  match ss with
  | [] =>
    obtain rfl := he
    exact ⟨fun labels => trivial, .nil⟩
  | s :: ss =>
    obtain ⟨c, c', hc, hc', rfl⟩ := he
    obtain ⟨hd, hd'⟩ := List.append_subset.mp hd
    obtain ⟨hv, hf⟩ := Stmt.valid hA s hc hs.1 hsee hd
    obtain ⟨hv', hf'⟩ := Stmt.validAll hA ss hc' hs.2 (hA.adds hsee (Stmt.adds s hs.1) hd) hd'
    rw [Stmt.after_path] at hv'
    exact ⟨fun labels => Code.validAll_append.mpr ⟨hv labels, hv' labels⟩, hf.append hf'⟩

/-- Further branches; `hlast` is about what stands in the `else` of the last of them. -/
theorem ElseIf.validAll {A : List String → Access} {D : List Declared} {F : List Function} {outer : List Layer}
    {l : Layer} {ds : List Declared} {last : Layer → Option (List Code) → Prop} {o : Option (List Code)}
    (hA : Allows A D) (es : List ElseIf) (he : ElseIf.EmittedAll F outer l es last o)
    (hs : ElseIf.ScopedAll outer l es) (hsee : (A l.path).Sees (l :: outer))
    (hd : ElseIf.declaredAll outer l es ⊆ D)
    (hlast : ∀ o, last (ElseIf.afterAll l es) o →
      (∀ labels, ∀ b ∈ o, Code.ValidAll (A l.path) labels b) ∧ Defines A D F ds) :
    (∀ labels, ∀ b ∈ o, Code.ValidAll (A l.path) labels b) ∧
      Defines A D F (ElseIf.declaredAll outer l es ++ ds) := by
  match es with
  | [] => exact hlast o he
  | ⟨cond, body, line⟩ :: others =>
    obtain ⟨b, o', hb, ho, rfl⟩ := he
    obtain ⟨hsc, hsb, hso⟩ := hs
    obtain ⟨hdb, hdo⟩ := List.append_subset.mp hd
    obtain ⟨hvb, hfb⟩ := Stmt.validAll hA body hb hsb hsee hdb
    obtain ⟨hvo, hfo⟩ := ElseIf.validAll hA others ho hso (hA.adds hsee (Stmt.addsAll body hsb) hdb) hdo
      (by rwa [Stmt.afterAll_path])
    rw [Stmt.afterAll_path] at hvo
    rw [ElseIf.declaredAll, List.append_assoc]
    refine ⟨fun labels b' hb' => ?_, hfb.append hfo⟩
    cases hb'
    exact ⟨valid_ifElse (hsee.folded hsc) (hvb labels) (hvo labels), trivial⟩

theorem Block.valid {A : List String → Access} {D : List Declared} {F : List Function} {outer : List Layer}
    {l : Layer} {codes : List Code} (hA : Allows A D) (b : Block) (he : b.Emitted F outer l codes)
    (hs : b.Scoped outer l) (hsee : (A l.path).Sees (l :: outer)) (hd : b.declared outer l ⊆ D) :
    (∀ id ∈ Decl.savedAll true l.path b.decls, ∃ n, (l.path, .var n) ∈ D ∧ id = qualify l.path n) ∧
      (∀ labels, Code.ValidAll (A l.path) labels codes) ∧ Defines A D F (b.declared outer l) := by
  match b with
  | ⟨decls, some s, line⟩ =>
    obtain ⟨c, rfl, hc⟩ := he
    obtain ⟨hdd, hds⟩ := List.append_subset.mp hd
    obtain ⟨hv, hf⟩ := Stmt.valid hA s hc hs.2 (hA.adds hsee (Decl.adds hs.1) hdd) hds
    rw [Decl.afterAll_path] at hv
    refine ⟨Decl.own_of_savedAll hdd, fun labels => ?_, (Decl.defines_declaredAll decls).append hf⟩
    exact Code.validAll_append.mpr ⟨Decl.valid_setsAll hA hdd labels, hv labels⟩
  | ⟨decls, none, line⟩ =>
    obtain ⟨c, rfl, rfl⟩ := he
    obtain ⟨hdd, -⟩ := List.append_subset.mp hd
    refine ⟨Decl.own_of_savedAll hdd, fun labels => ?_, (Decl.defines_declaredAll decls).append .nil⟩
    exact Code.validAll_append.mpr ⟨Decl.valid_setsAll hA hdd labels, trivial⟩

end

theorem Block.validAll {F : List Function}
    {codes : List Code} (hA : Allows A D) (bs : List Block) (he : Block.EmittedAll F [] l bs codes)
    (hs : Block.ScopedAll [] l bs) (hsee : (A l.path).Sees [l]) (hd : Block.declaredAll [] l bs ⊆ D) :
    Code.ValidAll (A l.path) [] codes ∧ Defines A D F (Block.declaredAll [] l bs) := by
  induction bs generalizing l codes with
  | nil =>
    obtain rfl := he
    exact ⟨trivial, .nil⟩
  | cons b bs ih =>
    obtain ⟨c, c', hc, hc', rfl⟩ := he
    obtain ⟨hd, hd'⟩ := List.append_subset.mp hd
    obtain ⟨-, hv, hf⟩ := Block.valid hA b hc hs.1 hsee hd
    obtain ⟨hv', hf'⟩ := ih hc' hs.2 (hA.adds hsee (Block.adds b hs.1) hd) hd'
    rw [Block.after_path] at hv'
    exact ⟨Code.validAll_append.mpr ⟨hv [], hv'⟩, hf.append hf'⟩

theorem isDotted_dotted {path : List String} (h : ∀ name ∈ path, IsWord name) : IsDotted (dotted path) := by
  intro c hc
  rcases mem_dotted hc with hc | ⟨name, hname, hc⟩
  · exact .inr hc
  · exact .inl ((h name hname).isAlphanum hc)

theorem Declared.of_global? {d : Declared} {g : Global} (h : d.global? = some g) :
    g.id = dotted d.full ∧ g.exported = d.exported? := by
  unfold Declared.global? at h
  split at h <;> cases h <;> exact ⟨rfl, rfl⟩

/-- Only declarations outside of all procedures are exported, so under their full names. -/
theorem Declared.of_exported? {d : Declared} {name : String} (h : d.exported? = some name) :
    name = dotted d.full ∧ name ≠ entryExport := by
  obtain ⟨path, entry⟩ := d
  unfold Declared.exported? at h
  split at h
  · cases h
  · next hcond =>
    cases h
    simp only [Bool.or_eq_true, Bool.not_eq_true', beq_iff_eq, not_or, Bool.not_eq_false, List.isEmpty_iff] at hcond
    obtain ⟨rfl, hname⟩ := hcond
    exact ⟨by simp [Declared.full, dotted], hname⟩

namespace Program

variable {p : Program} {M : StackModule}

/-- The module defines all that is declared. -/
theorem access_allows (hglobals : M.globals = p.declared.filterMap Declared.global?)
    (hfunctions : (M.functions.map (·.id)).Perm ((procedurePaths p.declared).map dotted)) :
    Allows (fun _ => M.access) p.declared := by
  refine ⟨?_, fun _ h => h⟩
  rintro ⟨path, entry⟩ hd
  have hmem {g : Global} (hg : Declared.global? (path, entry) = some g) : g ∈ M.globals :=
    hglobals ▸ List.mem_filterMap.mpr ⟨_, hd, hg⟩
  cases entry with
  | var name => exact ⟨⟨_, hmem rfl, rfl⟩, _, hmem rfl, rfl, rfl⟩
  | const name v => exact ⟨_, hmem rfl, rfl⟩
  | procedure name body =>
    have hpath : path ++ [name] ∈ procedurePaths p.declared :=
      List.mem_map.mpr ⟨_, List.mem_filter.mpr ⟨hd, rfl⟩, rfl⟩
    exact List.mem_map.mp (hfunctions.mem_iff.mpr (List.mem_map_of_mem hpath))

/-- The module of a well-scoped program is well-formed. -/
theorem emits_wellFormed (h : p.Scoped) : ∃ M : StackModule,
    Target.stackModule.render p.code = .ok (M.text, []) ∧ M.WellFormed ∧
    M.globals = p.declared.filterMap Declared.global? ∧
    (M.functions.map (·.id)).Perm ((procedurePaths p.declared).map dotted) ∧
    Block.EmittedAll M.functions [] .initial p.blocks M.entry := by
  obtain ⟨M, w, -, hM, hglobals, hfunctions, hentry⟩ := p.emits h
  have hallows := access_allows hglobals hfunctions
  obtain ⟨hvalid, hdefines⟩ := Block.validAll hallows p.blocks hentry h (by simp [Access.Sees, Layer.initial])
    (List.Subset.refl _)
  have hnodup : (M.functions.map Function.id).Nodup :=
    hfunctions.nodup_iff.mpr (p.procedurePaths_distinct h).nodup_dotted
  have hglobal {g : Global} (hg : g ∈ M.globals) : ∃ d ∈ p.declared, d.global? = some g :=
    List.mem_filterMap.mp (hglobals ▸ hg)
  refine ⟨M, hM, ⟨?_, hnodup, fun g hg => ?_, fun f hf => ?_, fun g hg name hname => ?_, hvalid⟩,
    hglobals, hfunctions, hentry⟩
  · have hsub : ((p.declared.filterMap Declared.global?).map Global.id).Sublist
        (p.declared.map fun d => dotted d.full) := by
      rw [List.map_filterMap]
      refine filterMap_sublist_map fun d _ id hid => ?_
      obtain ⟨g, hg, rfl⟩ := Option.map_eq_some_iff.mp hid
      exact (Declared.of_global? hg).1
    have hdistinct := (declared_distinct h).nodup_dotted
    rw [List.map_map] at hdistinct
    exact hglobals ▸ hsub.nodup hdistinct
  · obtain ⟨d, hd, hg⟩ := hglobal hg
    exact (Declared.of_global? hg).1 ▸ isDotted_dotted (p.declared_words h d hd)
  · have hid : f.id ∈ (procedurePaths p.declared).map dotted := hfunctions.mem_iff.mp (List.mem_map_of_mem hf)
    obtain ⟨path, hpath, hid⟩ := List.mem_map.mp hid
    obtain ⟨d, hd, rfl⟩ := List.mem_map.mp hpath
    obtain ⟨hd, hproc⟩ := List.mem_filter.mp hd
    obtain ⟨f', hf', himpl⟩ := hdefines d hd hproc
    -- names are distinct, so this is the function that was made for the procedure
    obtain rfl := List.inj_on_of_nodup_map hnodup hf hf' (hid.symm.trans himpl.id.symm)
    exact ⟨hid ▸ isDotted_dotted (p.declared_words h d hd), himpl.valid hallows⟩
  · obtain ⟨d, -, hg⟩ := hglobal hg
    obtain ⟨hid, hexported⟩ := Declared.of_global? hg
    rw [hid]
    exact Declared.of_exported? (hexported ▸ hname)

/-- The text of the stack module of a program read from source text is a valid module. Its functions are the hooks,
the entry function and one for each procedure. -/
theorem module_text_valid {source : String} {t : Table} (hp : Program.ofSource source = .ok p)
    (ht : p.analyze = .ok t) :
    ∃ text fields, Target.stackModule.render p.code = .ok (text, []) ∧ Field.allOfText? text = some fields ∧
      ValidModule fields ∧
      ((fields.filterMap Field.definedFunction?).map Prod.fst).Perm
        (["$__read", "$__write", "$__main"] ++ (procedurePaths p.declared).map fun path => "$" ++ dotted path) ∧
      ∃ body, .function "$__main" ["main"] [] body ∈ fields := by
  obtain ⟨M, hM, hwell, -, hfunctions, -⟩ := emits_wellFormed (Program.scoped_of_source hp ht)
  refine ⟨M.text, M.fields, hM, hwell.allOfText?_text, hwell.valid, ?_, ?_⟩
  · have hids := hfunctions.map ("$" ++ ·)
    rw [List.map_map (l := procedurePaths p.declared)] at hids
    rw [functionIds_fields, List.append_assoc]
    refine List.Perm.append_left ["$__read", "$__write"] ((hids.append_right ["$__main"]).trans ?_)
    exact List.perm_append_comm
  · exact ⟨_, List.mem_append_right _ (List.mem_singleton_self _)⟩

/-- A procedure in a procedure, a loop, a constant, and a variable with the name of the entry function. -/
theorem module_text_valid_nested : ∃ source p t text fields,
    source = "const c = 2; var main; procedure p; var k; begin procedure q; k := c; while k do q; endwhile; end; p;" ∧
      Program.ofSource source = .ok p ∧ p.analyze = .ok t ∧ Target.stackModule.render p.code = .ok (text, []) ∧
      Field.allOfText? text = some fields ∧ ValidModule fields ∧
      ((fields.filterMap Field.definedFunction?).map Prod.fst).Perm
        ["$__read", "$__write", "$__main", "$p", "$p.q"] := by
  obtain ⟨source, p, t, hsource, hp, ht, hpaths⟩ : ∃ source p t,
      source = "const c = 2; var main; procedure p; var k; begin procedure q; k := c; while k do q; endwhile; end; p;" ∧
        Program.ofSource source = .ok p ∧ p.analyze = .ok t ∧ procedurePaths p.declared = [["p"], ["p", "q"]] :=
    ⟨_, _, _, rfl, rfl, rfl, by decide⟩
  obtain ⟨text, fields, hrender, hread, hvalid, hids, -⟩ := module_text_valid hp ht
  rw [hpaths] at hids
  exact ⟨source, p, t, text, fields, hsource, hp, ht, hrender, hread, hvalid, hids⟩

end Program

end PLZero
