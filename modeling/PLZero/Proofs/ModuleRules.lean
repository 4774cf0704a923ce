import PLZero.Proofs.ModuleText

/-! Valid modules: names are defined once, code refers only to what is in sight, sets only what can be set, and
branches only to labels around it. The fields of a well-formed stack module are a valid module. -/

namespace PLZero

/-- What the code of a function can refer to. -/
structure Context where
  globals : List (String × Bool)
  /-- Functions, with their numbers of parameters and results. -/
  functions : List (String × Nat × Nat)
  locals : List String
  labels : List String

namespace Context

def inside (c : Context) (label : String) : Context := { c with labels := label :: c.labels }

/-- Expressions that leave a value. -/
inductive Value (c : Context) : Sexp → Prop
  | const (v : Int32) : Value c (.list [.word "i32.const", .word (Text.ofWord v)])
  | globalGet {id : String} {mutable : Bool} (h : (id, mutable) ∈ c.globals) :
    Value c (.list [.word "global.get", .word id])
  | localGet {id : String} (h : id ∈ c.locals) : Value c (.list [.word "local.get", .word id])
  | isZero {x : Sexp} (hx : Value c x) : Value c (.list [.word "i32.eqz", x])
  | binary (op : BinOp) {x y : Sexp} (hx : Value c x) (hy : Value c y) :
    Value c (.list [.word (StackModule.opName op), x, y])
  | call {id : String} {args : List Sexp} (h : (id, args.length, 1) ∈ c.functions) (hargs : ∀ x ∈ args, Value c x) :
    Value c (.list (.word "call" :: .word id :: args))

/-- Expressions that leave no value. -/
inductive Effect : Context → Sexp → Prop
  | globalSet {c : Context} {id : String} {x : Sexp} (h : (id, true) ∈ c.globals) (hx : Value c x) :
    Effect c (.list [.word "global.set", .word id, x])
  | localSet {c : Context} {id : String} {x : Sexp} (h : id ∈ c.locals) (hx : Value c x) :
    Effect c (.list [.word "local.set", .word id, x])
  | call {c : Context} {id : String} {args : List Sexp} (h : (id, args.length, 0) ∈ c.functions)
    (hargs : ∀ x ∈ args, Value c x) : Effect c (.list (.word "call" :: .word id :: args))
  | ifThen {c : Context} {cond : Sexp} {body : List Sexp} (hc : Value c cond) (hb : ∀ x ∈ body, Effect c x) :
    Effect c (.list [.word "if", cond, .list (.word "then" :: body)])
  | ifElse {c : Context} {cond : Sexp} {body other : List Sexp} (hc : Value c cond) (hb : ∀ x ∈ body, Effect c x)
    (ho : ∀ x ∈ other, Effect c x) :
    Effect c (.list [.word "if", cond, .list (.word "then" :: body), .list (.word "else" :: other)])
  | block {c : Context} {label : String} {body : List Sexp} (hb : ∀ x ∈ body, Effect (c.inside label) x) :
    Effect c (.list (.word "block" :: .word label :: body))
  | loop {c : Context} {label : String} {body : List Sexp} (hb : ∀ x ∈ body, Effect (c.inside label) x) :
    Effect c (.list (.word "loop" :: .word label :: body))
  | branch {c : Context} {label : String} (h : label ∈ c.labels) : Effect c (.list [.word "br", .word label])
  | branchIf {c : Context} {label : String} {x : Sexp} (h : label ∈ c.labels) (hx : Value c x) :
    Effect c (.list [.word "br_if", .word label, x])

end Context

namespace Field

def isImported : Field → Bool
  | .imported .. => true
  | _ => false

def definedGlobal? : Field → Option (String × Bool)
  | .global id _ mutable _ => some (id, mutable)
  | _ => none

def definedFunction? : Field → Option (String × Nat × Nat)
  | .imported _ _ id params results => some (id, params, results)
  | .function id .. => some (id, 0, 0)
  | .global .. => none

def exports : Field → List String
  | .global _ exports .. | .function _ exports .. => exports
  | .imported .. => []

/-- What the code of a function with these locals can refer to outside of all blocks. -/
def context (fields : List Field) (locals : List String) : Context :=
  ⟨fields.filterMap definedGlobal?, fields.filterMap definedFunction?, locals, []⟩

def Valid (fields : List Field) : Field → Prop
  | .imported .. => True
  | .global _ _ _ value => ∃ v, value = StackModule.const v
  | .function _ _ locals body => locals.Nodup ∧ ∀ x ∈ body, (context fields locals).Effect x

end Field

/-- A module in which all references are to what it defines. Imports come first. -/
structure ValidModule (fields : List Field) : Prop where
  imports : fields.Pairwise fun f g => g.isImported = true → f.isImported = true
  globals : ((fields.filterMap Field.definedGlobal?).map Prod.fst).Nodup
  functions : ((fields.filterMap Field.definedFunction?).map Prod.fst).Nodup
  exports : (fields.flatMap Field.exports).Nodup
  entry : (fields.flatMap Field.exports).count StackModule.entryExport = 1
  valid : ∀ f ∈ fields, f.Valid fields

namespace StackModule

/-- A context in which code can do what it may, and branch to these labels. -/
structure Access.Within (a : Access) (labels : List Label) (c : Context) : Prop where
  get : ∀ name, a.get name → ∃ mutable, ("$" ++ name, mutable) ∈ c.globals
  set : ∀ name, a.set name → ("$" ++ name, true) ∈ c.globals
  call : ∀ name, a.call name → ("$" ++ name, 0, 0) ∈ c.functions
  hooks : ∀ h ∈ Hook.all, (h.id, h.params, h.results) ∈ c.functions
  labels : ∀ l ∈ labels, l.text ∈ c.labels

section

variable {a : Access} {labels : List Label} {c : Context}

theorem Access.Within.inside (h : a.Within labels c) (label : Label) :
    a.Within (label :: labels) (c.inside label.text) where
  get := h.get
  set := h.set
  call := h.call
  hooks := h.hooks
  labels l hl := by
    rcases List.mem_cons.mp hl with rfl | hl
    · exact List.mem_cons_self
    · exact List.mem_cons_of_mem _ (h.labels l hl)

theorem value_get {name : String} (h : a.Within labels c) (hn : a.get name) : c.Value (get name) :=
  (h.get name hn).elim fun _ => .globalGet

theorem value_exprSexp {e : Folded} (h : a.Within labels c) (he : e.Over a.get) : c.Value (exprSexp e) := by
  induction e with
  | const v => exact .const v
  | name n => exact value_get h he
  | binary op left right ihl ihr => exact .binary op (ihl he.1) (ihr he.2)

mutual

theorem Code.effect {labels : List Label} {c : Context} (h : a.Within labels c) (code : Code)
    (hv : code.Valid a labels) : c.Effect code.sexp := by
  match code with
  | .set global value => exact .globalSet (h.set _ hv.1) (value_exprSexp h hv.2)
  | .read global => exact .globalSet (h.set _ hv) (.call (h.hooks .read (by decide)) (List.forall_mem_nil _))
  | .write value =>
    exact .call (h.hooks .write (by decide)) (List.forall_mem_singleton.mpr (value_exprSexp h hv))
  | .call function => exact .call (h.call _ hv) (List.forall_mem_nil _)
  | .ifElse cond body (some other) =>
    obtain ⟨hc, hb, ho⟩ := hv
    exact .ifElse (value_exprSexp h hc) (Code.effectAll h body hb) (Code.effectAll h other ho)
  | .ifElse cond body none =>
    obtain ⟨hc, hb, -⟩ := hv
    exact .ifThen (value_exprSexp h hc) (Code.effectAll h body hb)
  | .block label body => exact .block (Code.effectAll (h.inside label) body hv)
  | .loop label body => exact .loop (Code.effectAll (h.inside label) body hv)
  | .branch label => exact .branch (h.labels label hv)
  | .branchIfZero label value => exact .branchIf (h.labels label hv.1) (.isZero (value_exprSexp h hv.2))
  | .branchUnlessBelow label global bound =>
    exact .branchIf (h.labels label hv.1) (.binary .ge (value_get h hv.2.1) (value_exprSexp h hv.2.2))
  | .increment global => exact .globalSet (h.set _ hv.2) (.binary .add (value_get h hv.1) (.const 1))

theorem Code.effectAll {labels : List Label} {c : Context} (h : a.Within labels c) (codes : List Code)
    (hv : Code.ValidAll a labels codes) : ∀ x ∈ Code.sexpAll codes, c.Effect x := by
  match codes with
  | [] => exact List.forall_mem_nil _
  | code :: codes => exact List.forall_mem_cons.mpr ⟨Code.effect h code hv.1, Code.effectAll h codes hv.2⟩

end

end

variable {m : StackModule}

theorem definedGlobals_fields (m : StackModule) :
    m.fields.filterMap Field.definedGlobal? = m.globals.map fun g => ("$" ++ g.id, g.constant.isNone) := by
  simp [fields, List.filterMap_map, Function.comp_def, Field.definedGlobal?, Global.field, functionField]

theorem definedFunctions_fields (m : StackModule) : m.fields.filterMap Field.definedFunction? =
    Hook.all.map (fun h => (h.id, h.params, h.results)) ++ m.functions.map (fun f => ("$" ++ f.id, 0, 0)) ++
      [("$" ++ entryId, 0, 0)] := by
  simp [fields, List.filterMap_map, Function.comp_def, Field.definedFunction?, Global.field, functionField]

theorem exports_fields (m : StackModule) :
    m.fields.flatMap Field.exports = m.globals.flatMap (·.exported.toList) ++ [entryExport] := by
  have hnone {α : Type} (as : List α) : as.flatMap (fun _ => ([] : List String)) = [] :=
    List.flatMap_eq_nil_iff.mpr fun _ _ => rfl
  simp [fields, List.flatMap_map, Field.exports, Global.field, functionField, hnone]

theorem access_within (m : StackModule) (locals : List String) :
    m.access.Within [] (Field.context m.fields locals) where
  get name hname := by
    obtain ⟨g, hg, rfl⟩ := hname
    rw [Field.context, definedGlobals_fields]
    exact ⟨_, List.mem_map.mpr ⟨g, hg, rfl⟩⟩
  set name hname := by
    obtain ⟨g, hg, rfl, hvar⟩ := hname
    rw [Field.context, definedGlobals_fields]
    exact List.mem_map.mpr ⟨g, hg, by rw [hvar]; rfl⟩
  call name hname := by
    obtain ⟨f, hf, rfl⟩ := hname
    rw [Field.context, definedFunctions_fields]
    exact List.mem_append_left _ (List.mem_append_right _ (List.mem_map.mpr ⟨f, hf, rfl⟩))
  hooks h hh := by
    rw [Field.context, definedFunctions_fields]
    exact List.mem_append_left _ (List.mem_append_left _ (List.mem_map.mpr ⟨h, hh, rfl⟩))
  labels := List.forall_mem_nil _

theorem functionField_valid (id : String) (exports : List String) {saved : List String} {body : List Code}
    (hsaved : ∀ name ∈ saved, m.access.set name) (hbody : Code.ValidAll m.access [] body) :
    (functionField id exports saved body).Valid m.fields := by
  let locals := saved.zipIdx.map fun slot => savedLocal slot.2
  have hwithin := m.access_within locals
  have hslot {g : String} {i : Nat} (hg : (g, i) ∈ saved.zipIdx) :
      m.access.get g ∧ m.access.set g ∧ savedLocal i ∈ locals := by
    have hset := hsaved g (List.fst_mem_of_mem_zipIdx hg)
    exact ⟨hset.imp fun _ h => ⟨h.1, h.2.1⟩, hset, List.mem_map.mpr ⟨(g, i), hg, rfl⟩⟩
  refine ⟨?_, forall_mem_body (fun g i hg => ?_) (Code.effectAll hwithin body hbody)⟩
  · -- the locals are numbered, so a global that is saved twice still has two of them
    have hindices : locals = (saved.zipIdx.map Prod.snd).map savedLocal := by
      rw [List.map_map]
      rfl
    change locals.Nodup
    rw [hindices, List.zipIdx_map_snd]
    exact List.Nodup.map savedLocal_injective List.nodup_range'
  · obtain ⟨hget, hset, hlocal⟩ := hslot hg
    have hglobal := hwithin.set g hset
    exact ⟨.localSet hlocal (value_get hwithin hget), .globalSet hglobal (.const 0),
      .globalSet hglobal (.localGet hlocal)⟩

theorem functionIds_fields (m : StackModule) : (m.fields.filterMap Field.definedFunction?).map Prod.fst =
    Hook.all.map Hook.id ++ (m.functions.map Function.id).map ("$" ++ ·) ++ ["$" ++ entryId] := by
  simp [definedFunctions_fields, Function.comp_def]

theorem dollar_injective : Function.Injective ("$" ++ · : String → String) :=
  fun _ _ h => (String.append_right_inj _).mp h

/-- Function names are told apart from those of the hooks and the entry function by the underscore in these. -/
theorem WellFormed.functionIds_nodup (h : m.WellFormed) :
    ((m.fields.filterMap Field.definedFunction?).map Prod.fst).Nodup := by
  have hne {id : String} (hid : id ∈ (m.functions.map Function.id).map ("$" ++ ·)) : '_' ∉ id.toList := by
    obtain ⟨name, hname, rfl⟩ := List.mem_map.mp hid
    obtain ⟨f, hf, rfl⟩ := List.mem_map.mp hname
    intro hmem
    rw [String.toList_append] at hmem
    rcases List.mem_append.mp hmem with hmem | hmem
    · revert hmem
      decide
    · have hdotted := (h.functions f hf).1 '_' hmem
      revert hdotted
      decide
  have hhook : ∀ id ∈ Hook.all.map Hook.id, '_' ∈ id.toList ∧ id ≠ "$" ++ entryId := by decide
  rw [functionIds_fields, List.append_assoc, List.nodup_append, List.nodup_append]
  refine ⟨by decide, ⟨h.functions_nodup.map dollar_injective, List.nodup_singleton _, ?_⟩, ?_⟩
  · intro x hx y hy hxy
    obtain rfl := List.mem_singleton.mp hy
    exact hne hx (hxy ▸ by decide)
  · intro x hx y hy hxy
    subst hxy
    rcases List.mem_append.mp hy with hy | hy
    · exact hne hy (hhook x hx).1
    · exact (hhook x hx).2 (List.mem_singleton.mp hy)

theorem filterMap_sublist_map {α β : Type} {f : α → Option β} {g : α → β} {as : List α}
    (h : ∀ a ∈ as, ∀ b ∈ f a, b = g a) : (as.filterMap f).Sublist (as.map g) := by
  induction as with
  | nil => exact .slnil
  | cons a as ih =>
    obtain ⟨ha, has⟩ := List.forall_mem_cons.mp h
    rw [List.map_cons]
    cases hfa : f a with
    | none =>
      rw [List.filterMap_cons_none hfa]
      exact (ih has).cons _
    | some b =>
      rw [List.filterMap_cons_some hfa, ha b hfa]
      exact (ih has).cons_cons _

/-- Globals are exported under their own names. -/
theorem WellFormed.exports_nodup (h : m.WellFormed) : (m.fields.flatMap Field.exports).Nodup := by
  have hsub := filterMap_sublist_map fun g hg name hname => (h.exports g hg name hname).1
  rw [List.filterMap_eq_flatMap_toList] at hsub
  rw [exports_fields, List.nodup_append]
  refine ⟨hsub.nodup h.globals_nodup, List.nodup_singleton _, ?_⟩
  intro x hx y hy hxy
  obtain ⟨g, hg, hx⟩ := List.mem_flatMap.mp hx
  obtain rfl := List.mem_singleton.mp hy
  exact (h.exports g hg x (Option.mem_toList.mp hx)).2 hxy

/-- The fields of a well-formed module are a valid module. -/
theorem WellFormed.valid (h : m.WellFormed) : ValidModule m.fields where
  imports := by
    have hfirst : ∀ f ∈ Hook.all.map fun k => Field.imported k.source k.name k.id k.params k.results,
        f.isImported = true := by decide
    have hother : ∀ f ∈ m.globals.map Global.field ++ m.functions.map (fun f => functionField f.id [] f.saved f.body) ++
        [functionField entryId [entryExport] [] m.entry], f.isImported = false := by
      simp [or_imp, forall_and, Global.field, functionField, Field.isImported]
    rw [fields, List.append_assoc, List.append_assoc, ← List.append_assoc (m.globals.map Global.field),
      List.pairwise_append]
    refine ⟨List.pairwise_of_forall_mem_list fun f hf _ _ _ => hfirst f hf,
      List.pairwise_of_forall_mem_list fun _ _ g hg himp => ?_, fun f hf _ _ _ => hfirst f hf⟩
    rw [hother g hg] at himp
    cases himp
  globals := by
    rw [definedGlobals_fields, List.map_map]
    have hids := h.globals_nodup.map dollar_injective
    rwa [List.map_map] at hids
  functions := h.functionIds_nodup
  exports := h.exports_nodup
  entry := List.count_eq_one_of_mem h.exports_nodup (by simp [exports_fields])
  valid f hf := by
    simp only [fields, List.mem_append, List.mem_map, List.mem_singleton] at hf
    rcases hf with ((⟨k, -, rfl⟩ | ⟨g, -, rfl⟩) | ⟨f, hf, rfl⟩) | rfl
    · trivial
    · exact ⟨_, rfl⟩
    · exact functionField_valid _ _ (h.functions f hf).2.saved (h.functions f hf).2.body
    · exact functionField_valid _ _ (List.forall_mem_nil _) h.entry

end StackModule

end PLZero
