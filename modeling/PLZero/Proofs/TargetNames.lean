import PLZero.Proofs.ModuleValid
import PLZero.Proofs.ScriptScopes

/-! Names in the two targets. A script marks the names that mean something else there with an underscore, and a stack module
joins the names of a path with dots. Identifiers of the source language hold neither mark, so no two of them, and no two
paths of them, become one name, and none becomes a name of the host or of the entry function. -/

namespace PLZero

def Declared.site (d : Declared) : Site := (d.1, d.2.name)

theorem Expr.declared_sites (e : Expr) (s : Scopes) (rest : List Instr) :
    codeSites Op.declares s (e.codeThen rest) = codeSites Op.declares s rest := by
  induction e generalizing rest with
  | binary op left right line ihl ihr =>
    rw [Expr.codeThen, ihl, ihr]
    rfl
  | literal value line => rfl
  | ident name line => rfl

/-- Laid out code declares what it is said to declare, in the same scopes and in the same order. -/
theorem Layout.declared_sites {S : Prop} {outer : List Layer} {l : Layer} {es : List Expr} {ds : List Declared}
    {code : List Instr} (h : Layout S outer l es ds code) :
    codeSites Op.declares (l.scopes outer) code = ds.map Declared.site := by
  induction h with
  | nil => rfl
  | @alone _ _ _ _ op _ _ hop _ h ih => cases op <;> first | exact ih | cases hop
  | @taking _ _ e _ _ op _ _ hop _ _ h ih =>
    rw [e.declared_sites]
    cases op <;> first | exact ih | cases hop
  | @test _ _ e _ _ _ _ _ _ h ih => exact (e.declared_sites _ _).trans ih
  | @count _ _ start bound _ _ _ _ _ _ _ _ _ h ih =>
    exact (start.declared_sites _ _).trans ((bound.declared_sites _ _).trans ih)
  | @declare _ l _ _ d _ _ _ h ih =>
    rw [List.map_cons, ← ih]
    cases d with
    | const name init line => rfl
    | var name init line => cases init <;> rfl
  | @enter _ l _ _ name _ _ _ _ h ih => exact congrArg ((l.path, name) :: ·) ih
  | leave h ih => exact ih

theorem Program.declared_sites (p : Program) : codeSites Op.declares .initial p.code = p.declared.map Declared.site :=
  p.layout.declared_sites

/-- The texts that a scan gives as identifiers. -/
def IsIdentifier (name : String) : Prop :=
  ∃ source, ∃ t ∈ (Scan.ofSource source).tokens, t.kind = .identifier ∧ t.text = name

theorem IsIdentifier.isWord {name : String} (h : IsIdentifier name) : IsWord name := by
  obtain ⟨source, t, ht, hkind, rfl⟩ := h
  exact Scan.ofSource_identifier ht hkind

section

variable {path path' : List String} {name name' : String}

theorem underscore_notMem_qualify (h : ∀ n ∈ path ++ [name], IsWord n) : '_' ∉ (qualify path name).toList := by
  intro hmem
  rcases mem_dotted hmem with hdot | ⟨n, hn, hc⟩
  · revert hdot
    decide
  · exact Script.underscore_notMem (h n hn) hc

theorem qualify_inj (h : ∀ n ∈ path ++ [name], IsWord n) (h' : ∀ n ∈ path' ++ [name'], IsWord n)
    (heq : qualify path name = qualify path' name') : path = path' ∧ name = name' := by
  have hpath := dotted_inj (by simp) (by simp) h h' heq
  obtain ⟨hinit, hlast⟩ := List.append_inj' hpath rfl
  exact ⟨hinit, List.singleton_inj.mp hlast⟩

/-- The identifiers of a module that are not made from declarations have an underscore. -/
theorem qualify_ne_host (h : ∀ n ∈ path ++ [name], IsWord n) :
    qualify path name ≠ StackModule.entryId ∧ ∀ hook ∈ Hook.all, "$" ++ qualify path name ≠ hook.id := by
  have hfree := underscore_notMem_qualify h
  refine ⟨fun heq => hfree (heq ▸ by decide), fun hook hhook heq => hfree ?_⟩
  have hmark : '_' ∈ hook.id.toList := by
    have hall : ∀ hook ∈ Hook.all, '_' ∈ hook.id.toList := by decide
    exact hall hook hhook
  rw [← heq, String.toList_append, List.mem_append] at hmark
  exact hmark.resolve_left (by decide)

end

/-- Every declaration of a program has an identifier of its own in the module. -/
theorem StackModule.ids_perm {M : StackModule} {ds : List Declared} (hglobals : M.globals = ds.filterMap Declared.global?)
    (hfunctions : (M.functions.map (·.id)).Perm ((procedurePaths ds).map dotted)) :
    (M.globals.map (·.id) ++ M.functions.map (·.id)).Perm (ds.map fun d => qualify d.1 d.2.name) := by
  have hids : M.globals.map (·.id) = (ds.filter fun d => !d.2.isProcedure).map fun d => qualify d.1 d.2.name := by
    rw [hglobals]
    clear hglobals hfunctions
    induction ds with
    | nil => rfl
    | cons d ds ih =>
      obtain ⟨path, entry⟩ := d
      cases entry with
      | var n => exact congrArg (qualify path n :: ·) ih
      | const n v => exact congrArg (qualify path n :: ·) ih
      | procedure n body => exact ih
  have hpaths : (procedurePaths ds).map dotted = (ds.filter (·.2.isProcedure)).map fun d => qualify d.1 d.2.name :=
    List.map_map
  rw [hids]
  rw [hpaths] at hfunctions
  refine (hfunctions.append_left _).trans ?_
  rw [← List.map_append]
  exact (List.perm_append_comm.trans (List.filter_append_perm _ ds)).map _

/-- The identifier that a field defines. -/
def Field.id : Field → String
  | .imported _ _ id _ _ | .global id _ _ _ | .function id _ _ _ => id

/-- The identifiers of a module: those of the host's functions, that of the entry function, and one for
each declaration of the program, all different. -/
structure Field.NamesApart (fields : List Field) (ds : List Declared) : Prop where
  defined : (fields.map Field.id).Perm (Hook.all.map Hook.id ++ ("$" ++ StackModule.entryId) ::
    ds.map fun d => "$" ++ qualify d.1 d.2.name)
  nodup : (fields.map Field.id).Nodup

/-- The names of a script: one for each declaration of the program, in the function of its procedure and different from
all others there, and one for the entry function. None of them, and no name that is mentioned, is a name that a script
cannot use or one of the host's functions. -/
structure Script.NamesApart (script : Script) (ds : List Declared) : Prop where
  declared : script.declared.Perm (([], entryName) :: ds.map fun d => (d.1.map nameOf, nameOf d.2.name))
  nodup : script.declared.Nodup
  host : ∀ d ∈ script.declared ++ script.mentioned, d.2 ∉ reserved ∧ ∀ hook ∈ Hook.all, d.2 ≠ hook.name

theorem Script.nameOf_ne_host (name : String) :
    nameOf name ∉ reserved ∧ (∀ hook ∈ Hook.all, nameOf name ≠ hook.name) ∧ nameOf name ≠ entryName := by
  have htaken := nameOf_notMem_taken name
  simp only [taken, List.mem_append, List.mem_cons, not_or] at htaken
  exact ⟨htaken.1, by simpa [Hook.all] using ⟨htaken.2.1, htaken.2.2.1⟩, nameOf_ne_entryName name⟩

namespace Program

variable {p : Program}

theorem module_names_apart (h : p.Scoped) :
    ∃ text fields, Target.stackModule.render p.code = .ok (text, []) ∧
      Field.allOfText? text = some fields ∧ Field.NamesApart fields p.declared := by
  obtain ⟨M, hM, hwell, hglobals, hfunctions, -⟩ := emits_wellFormed h
  have hids : M.fields.map Field.id = Hook.all.map Hook.id ++
      (M.globals.map (·.id) ++ M.functions.map (·.id)).map ("$" ++ ·) ++
        ["$" ++ StackModule.entryId] := by
    simp [StackModule.fields, StackModule.functionField, StackModule.Global.field, Field.id,
      Function.comp_def]
  have hdefined : (M.fields.map Field.id).Perm (Hook.all.map Hook.id ++
      ("$" ++ StackModule.entryId) :: p.declared.map fun d => "$" ++ qualify d.1 d.2.name) := by
    have hperm := (StackModule.ids_perm hglobals hfunctions).map ("$" ++ ·)
    rw [List.map_map] at hperm
    rw [hids, List.append_assoc]
    exact ((hperm.append_right _).trans (List.perm_append_singleton _ _)).append_left _
  refine ⟨M.text, M.fields, hM, hwell.allOfText?_text, hdefined,
    hdefined.nodup_iff.mpr (List.nodup_append.mpr ⟨by decide, ?_, ?_⟩)⟩
  · have hdistinct := (declared_distinct h).nodup_dotted
    rw [List.map_map] at hdistinct
    refine List.nodup_cons.mpr ⟨fun hmem => ?_, ?_⟩
    · obtain ⟨d, hd, heq⟩ := List.mem_map.mp hmem
      exact (qualify_ne_host (p.declared_words h d hd)).1 ((String.append_right_inj "$").mp heq)
    · have hmap := hdistinct.map (f := ("$" ++ ·)) fun _ _ => (String.append_right_inj "$").mp
      rwa [List.map_map] at hmap
  · intro x hx y hy hxy
    obtain ⟨hook, hhook, rfl⟩ := List.mem_map.mp hx
    rcases List.mem_cons.mp hy with rfl | hy
    · have hentry : ∀ hook ∈ Hook.all, hook.id ≠ "$" ++ StackModule.entryId := by decide
      exact hentry hook hhook hxy
    · obtain ⟨d, hd, rfl⟩ := List.mem_map.mp hy
      exact (qualify_ne_host (p.declared_words h d hd)).2 hook hhook hxy.symm

theorem script_names_apart (h : p.Scoped) : ∃ script, Script.ofCode p.code = .ok script ∧ script.NamesApart p.declared := by
  obtain ⟨script, hscript⟩ := p.scripts h
  have hfine := p.fine h
  obtain ⟨hdeclared, hmentioned⟩ := Script.sites_of_code hfine hscript
  have hnodup := hdeclared.nodup_iff.mpr hfine.records.nodup_scripted
  rw [p.declared_sites, List.map_map] at hdeclared
  refine ⟨script, hscript, hdeclared, hnodup, List.forall_mem_append.mpr ⟨fun d hd => ?_, fun u hu => ?_⟩⟩
  · rcases List.mem_cons.mp (hdeclared.mem_iff.mp hd) with rfl | hd
    · decide +kernel
    · obtain ⟨d, -, rfl⟩ := List.mem_map.mp hd
      have hname := Script.nameOf_ne_host d.2.name
      exact ⟨hname.1, hname.2.1⟩
  · obtain ⟨u, -, rfl⟩ := List.mem_map.mp (hmentioned.mem_iff.mp hu)
    have hname := Script.nameOf_ne_host u.2
    exact ⟨hname.1, hname.2.1⟩

end Program

/-- Identifiers and paths of them stay apart in both targets, and from the names that the targets use themselves; so every
declaration of a program has a name of its own in its module and in its script. -/
theorem names_stay_apart :
    (∀ a b, IsIdentifier a → IsIdentifier b → Script.nameOf a = Script.nameOf b → a = b) ∧
    (∀ a, IsIdentifier a → Script.nameOf a ∉ Script.reserved ∧ (∀ hook ∈ Hook.all, Script.nameOf a ≠ hook.name) ∧
      Script.nameOf a ≠ Script.entryName) ∧
    (∀ path name path' name', (∀ n ∈ path ++ [name], IsIdentifier n) → (∀ n ∈ path' ++ [name'], IsIdentifier n) →
      qualify path name = qualify path' name' → path = path' ∧ name = name') ∧
    (∀ path name, (∀ n ∈ path ++ [name], IsIdentifier n) → ¬ ['_', '_'] <+: (qualify path name).toList ∧
      qualify path name ≠ StackModule.entryId ∧ ∀ hook ∈ Hook.all, "$" ++ qualify path name ≠ hook.id) ∧
    ∀ source p t, Program.ofSource source = .ok p → p.analyze = .ok t →
      (∃ text fields, Target.stackModule.render p.code = .ok (text, []) ∧
        Field.allOfText? text = some fields ∧ Field.NamesApart fields p.declared) ∧
      ∃ script, Script.ofCode p.code = .ok script ∧ script.NamesApart p.declared := by
  refine ⟨fun a b ha hb => Script.nameOf_inj ha.isWord hb.isWord, fun a _ => Script.nameOf_ne_host a,
    fun path name path' name' h h' => qualify_inj (fun n hn => (h n hn).isWord) fun n hn => (h' n hn).isWord,
    fun path name h => ?_, fun source p t hp ht => ?_⟩
  · have hwords : ∀ n ∈ path ++ [name], IsWord n := fun n hn => (h n hn).isWord
    exact ⟨fun hmarks => underscore_notMem_qualify hwords (hmarks.mem List.mem_cons_self), qualify_ne_host hwords⟩
  · have hscoped := Program.scoped_of_source hp ht
    exact ⟨p.module_names_apart hscoped, p.script_names_apart hscoped⟩

/-- The name of the entry function in two scopes, and a name that a script cannot use. -/
theorem names_stay_apart_taken : ∃ source p t,
    source = "var main, let; procedure p; var main; main := let;" ∧ Program.ofSource source = .ok p ∧
      p.analyze = .ok t ∧ (∀ name ∈ ["main", "let", "p"], IsIdentifier name) ∧
      Script.nameOf "main" ≠ Script.nameOf "let" ∧ Script.nameOf "let" ∉ Script.reserved ∧
      qualify [] "main" ≠ qualify ["p"] "main" ∧ qualify ["p"] "main" ≠ StackModule.entryId ∧
      (∃ text fields, Target.stackModule.render p.code = .ok (text, []) ∧
        Field.allOfText? text = some fields ∧ Field.NamesApart fields p.declared) ∧
      ∃ script, Script.ofCode p.code = .ok script ∧ script.NamesApart p.declared := by
  obtain ⟨hinj, hhost, hqualify, hentry, hprogram⟩ := names_stay_apart
  have hid : ∀ name ∈ ["main", "let", "p"], IsIdentifier name := by
    intro name hname
    refine ⟨"main let p", ⟨.identifier, name, 1⟩, ?_, rfl, rfl⟩
    revert hname name
    decide +kernel
  have hpath : ∀ n ∈ ["p"] ++ ["main"], IsIdentifier n :=
    List.forall_mem_append.mpr ⟨by simpa using hid "p" (by decide), by simpa using hid "main" (by decide)⟩
  obtain ⟨p, t, hp, ht⟩ : ∃ p t,
      Program.ofSource "var main, let; procedure p; var main; main := let;" = .ok p ∧ p.analyze = .ok t :=
    ⟨_, _, rfl, rfl⟩
  refine ⟨_, p, t, rfl, hp, ht, hid, fun heq => ?_, (hhost "let" (hid _ (by decide))).1, fun heq => ?_,
    (hentry _ _ hpath).2.1, hprogram _ p t hp ht⟩
  · exact absurd (hinj _ _ (hid _ (by decide)) (hid _ (by decide)) heq) (by decide)
  · exact absurd (hqualify _ _ _ _ (by simpa using hid "main" (by decide)) hpath heq).1 (by decide)

end PLZero
