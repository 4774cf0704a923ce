import PLZero.Proofs.Flow
import PLZero.Proofs.ReplaySafe
import PLZero.Proofs.Resolution
import PLZero.Proofs.SymbolTable
import PLZero.Replay.Snapshot

/-! Constants in a replay. Along the code of a procedure the constants of the scopes around it are known, its own
from their declarations on; nothing is stored where a constant is; so whenever a constant is loaded, the machine
holds the value that the table of symbols has for it. -/

namespace PLZero

namespace Replay

/-- A constant: the path of its scope, its name and its value. -/
structure Known where
  scope : List String
  name : String
  value : Int32

def Known.declared (c : Known) : Declared := (c.scope, .const c.name c.value)

def constants (layers : List Layer) : List Known :=
  layers.flatMap fun l => l.entries.filterMap fun
    | .const name v => some ⟨l.path, name, v⟩
    | _ => none

/-- What is known behind a step of the procedure with this path. -/
def Step.learn (path : List String) (K : List Known) : Step → List Known
  | .const v value => ⟨path, v.name, value⟩ :: K
  | _ => K

/-- The paths of procedures that have a number, and the empty one. -/
def Listed (ps : List (List String)) (path : List String) : Prop := path = [] ∨ path ∈ ps

/-- A step that the procedure with this path can have where these constants are known: it stores to variables
only, a constant that it loads is known, and a procedure that it calls needs no other constants. -/
def Suits (J : JumpCode) (ps : List (List String)) (D : Declared → Prop) (path : List String) (K : List Known) :
    Step → Prop
  | .load v => ∃ scope e, Listed ps scope ∧ v.owner = owner ps scope ∧ D (scope, e) ∧ e.name = v.name ∧
    e.isProcedure = false ∧ ∀ value, e = .const v.name value → ⟨scope, v.name, value⟩ ∈ K
  | .declare v | .store v | .read v | .forStep v _ => ∃ scope, Listed ps scope ∧ v.owner = owner ps scope ∧
    D (scope, .var v.name)
  | .const v value => v.owner = owner ps path ∧ D (path, .const v.name value)
  | .call n => ∃ home outer name body, n = ps.idxOf (home.path ++ [name]) ∧ Standing J ps home outer name body ∧
    Catalogued D home outer name body ∧ Ground J ps D (home :: outer) (home.inside name) ∧
    constants (home :: outer) ⊆ K
  | _ => True

/-- The procedure with this path goes on at a position with these constants known. -/
inductive Proceeds (J : JumpCode) (ps : List (List String)) (D : Declared → Prop) :
    List String → List Known → Nat → Prop
  | ended {K : List Known} : Proceeds J ps D [] K J.code.size
  | step {path : List String} {K : List Known} {i : Nat} {step : Step} {line : Option Nat}
    (hs : J.StepAt i step line) (hsuits : Suits J ps D path K step)
    (h : ∀ j ∈ step.successors i, Proceeds J ps D path (step.learn path K) j) : Proceeds J ps D path K i
  -- where a loop goes back to, given where it ends
  | loop {outer : List Layer} {l : Layer} {guard : Expr} {body : List Stmt} {test back : Step}
    {line line' : Option Nat} {i a b k : Nat} (hg : Ground J ps D outer l)
    (hguard : guard.At J ps (l :: outer) i a) (hscoped : guard.Scoped (l :: outer)) (htest : J.StepAt a test line)
    (htestOk : Allowed ps (l :: outer) test) (htestNext : test.successors a = [k, a + 1])
    (hbody : Stmt.AtAll J ps outer l body (a + 1) b) (hbodyScoped : Stmt.ScopedAll outer l body)
    (hd : ∀ d ∈ Stmt.declaredAll outer l body, D d) (hback : J.StepAt b back line')
    (hbackOk : Allowed ps (l :: outer) back) (hbackNext : back.successors b = [i])
    (hexit : Proceeds J ps D l.path (constants (l :: outer)) k) :
    Proceeds J ps D l.path (constants (l :: outer)) i

variable {J : JumpCode} {ps : List (List String)} {D : Declared → Prop} {layers outer : List Layer} {l : Layer}
  {path scope : List String} {K : List Known} {i k : Nat} {name : String}

theorem Nested.listed {c : Layer} (h : Nested ps (l :: outer)) (hc : c ∈ l :: outer) : Listed ps c.path := by
  induction outer generalizing l with
  | nil =>
    obtain rfl := List.mem_singleton.mp hc
    exact .inl h
  | cons l' outer ih =>
    rcases List.mem_cons.mp hc with rfl | hc
    · exact .inr h.2.1
    · exact ih h.2.2 hc

theorem mem_constants {c : Known} :
    c ∈ constants layers ↔ ∃ l ∈ layers, l.path = c.scope ∧ ScopeEntry.const c.name c.value ∈ l.entries := by
  unfold constants
  rw [List.mem_flatMap]
  refine exists_congr fun l => and_congr_right fun _ => ?_
  rw [List.mem_filterMap]
  constructor
  · intro h
    obtain ⟨e, he, heq⟩ := h
    cases e with
    | const n v =>
      cases heq
      exact ⟨rfl, he⟩
    | var n => cases heq
    | procedure n b => cases heq
  · intro h
    exact ⟨_, h.2, by rw [h.1]⟩

/-- A name in sight: its scope, and the constant that is known if it is one. -/
theorem Ground.suits_load (hg : Ground J ps D outer l) (h : Readable (l :: outer) name) :
    Suits J ps D path (constants (l :: outer)) (.load (varRef ps (l :: outer) name)) := by
  obtain ⟨f, hf, hb⟩ := h
  obtain ⟨hname, c, hdrop, hpath, hs, rest, hrest⟩ := lookup_home hf
  have hc : c ∈ l :: outer := List.mem_of_mem_drop (hdrop ▸ List.mem_cons_self)
  refine ⟨f.home.path, f.entry, ?_, by rw [varRef_of_lookup hf], hg.known_of_lookup hf hb, hname, hb, ?_⟩
  · rw [hpath]
    exact hg.setting.nested.listed hc
  · intro value he
    refine mem_constants.mpr ⟨c, hc, hpath.symm, hs.subset ?_⟩
    rw [hrest, he]
    exact List.mem_cons_self

/-- A name in sight that can be stored to is that of a variable. -/
theorem Ground.suits_store (hg : Ground J ps D outer l) (h : Assignable (l :: outer) name) :
    ∃ scope, Listed ps scope ∧ (varRef ps (l :: outer) name).owner = owner ps scope ∧ D (scope, .var name) := by
  obtain ⟨f, hf, he⟩ := h
  obtain ⟨-, c, hdrop, hpath, -⟩ := lookup_home hf
  refine ⟨f.home.path, ?_, by rw [varRef_of_lookup hf], he ▸ hg.known_of_lookup hf (by rw [he]; rfl)⟩
  rw [hpath]
  exact hg.setting.nested.listed (List.mem_of_mem_drop (hdrop ▸ List.mem_cons_self))

theorem Ground.suits_call (hg : Ground J ps D outer l) (h : Callable (l :: outer) name) :
    Suits J ps D path (constants (l :: outer)) (.call (procedureNumber ps (l :: outer) name)) := by
  obtain ⟨f, body, hf, he⟩ := h
  obtain ⟨hstanding, hcat, hinside⟩ := hg.callee hf he
  obtain ⟨-, c, hdrop, hpath, hs, -⟩ := lookup_home hf
  refine ⟨f.home, f.outer, name, body, by simp [procedureNumber, hf], hstanding, hcat, hinside, ?_⟩
  intro x hx
  obtain ⟨b, hb, hbpath, hmem⟩ := mem_constants.mp hx
  rcases List.mem_cons.mp hb with rfl | hb
  · exact mem_constants.mpr ⟨c, List.mem_of_mem_drop (hdrop ▸ List.mem_cons_self), hpath.symm.trans hbpath,
      hs.subset hmem⟩
  · exact mem_constants.mpr ⟨b, List.mem_of_mem_drop (hdrop ▸ List.mem_cons_of_mem _ hb), hbpath, hmem⟩

theorem Allowed.suits {step : Step} (path : List String) (hg : Ground J ps D outer l)
    (h : Allowed ps (l :: outer) step) : Suits J ps D path (constants (l :: outer)) step ∧
      step.learn path (constants (l :: outer)) = constants (l :: outer) := by
  cases step with
  | load v =>
    obtain ⟨name, hr, rfl⟩ := h
    exact ⟨hg.suits_load hr, rfl⟩
  | store v | read v | forStep v _ =>
    obtain ⟨name, ha, rfl⟩ := h
    exact ⟨hg.suits_store ha, rfl⟩
  | call n =>
    obtain ⟨name, hc, rfl⟩ := h
    exact ⟨hg.suits_call hc, rfl⟩
  | push _ | oper _ | write | jump _ | jumpIfFalse _ | forTest _ _ => exact ⟨trivial, rfl⟩
  | declare _ | const _ _ | leave => exact h.elim

/-- Knowing the constants in sight is handed back over the steps of a procedure. -/
theorem Proceeds.flow (J : JumpCode) (ps : List (List String)) (D : Declared → Prop) :
    Flow J ps D fun outer l i => Proceeds J ps D l.path (constants (l :: outer)) i where
  procedure := Iff.rfl
  step hg hs ha hnext := by
    obtain ⟨hsuits, hlearn⟩ := ha.suits _ hg
    exact .step hs hsuits (hlearn.symm ▸ hnext)
  declare hg hd hs h := by
    refine .step hs ⟨_, hg.setting.nested.listed List.mem_cons_self, rfl, hd⟩ ?_
    intro j hj
    obtain rfl := List.mem_singleton.mp hj
    exact h
  const hg hd hs h := by
    refine .step hs ⟨rfl, hd⟩ ?_
    intro j hj
    obtain rfl := List.mem_singleton.mp hj
    exact h
  loop hg hguard hscoped htest htestOk htestNext hbody hbodyScoped hd hback hbackOk hbackNext hexit :=
    .loop hg hguard hscoped htest htestOk htestNext hbody hbodyScoped hd hback hbackOk hbackNext hexit

/-- A procedure goes on with one step, unless it is the program and has come to its end. -/
theorem Proceeds.first (h : Proceeds J ps D path K i) :
    (∃ step line, J.StepAt i step line ∧ Suits J ps D path K step ∧
      ∀ j ∈ step.successors i, Proceeds J ps D path (step.learn path K) j) ∨ i = J.code.size := by
  cases h with
  | ended => exact .inr rfl
  | step hs hsuits hnext => exact .inl ⟨_, _, hs, hsuits, hnext⟩
  | @loop outer l guard body _ _ _ _ _ a b _ hg hguard hscoped htest htestOk htestNext hbody hbodyScoped hd hback
      hbackOk hbackNext hexit =>
    have F := Proceeds.flow J ps D
    have hhead := Proceeds.loop hg hguard hscoped htest htestOk htestNext hbody hbodyScoped hd hback hbackOk hbackNext
      hexit
    have hbody' := Stmt.flowAll F body hbody hbodyScoped hd hg (F.one hg hback hbackOk hbackNext hhead)
    obtain ⟨step, line, hs, hok, hnext⟩ := Expr.firstStep F hg hguard hscoped
      (F.two hg htest htestOk htestNext hexit hbody')
    obtain ⟨hsuits, hlearn⟩ := hok.suits l.path hg
    exact .inl ⟨step, line, hs, hsuits, hlearn.symm ▸ hnext⟩

/-- The body of a procedure, up to its return. -/
theorem Standing.proceeds {home : Layer} {body : Block} (h : Standing J ps home outer name body)
    (hd : Catalogued D home outer name body) (hg : Ground J ps D (home :: outer) (home.inside name)) :
    home.path ++ [name] ∈ ps ∧ ∃ text entry, J.procedures[ps.idxOf (home.path ++ [name])]? = some ⟨text, entry⟩ ∧
      Proceeds J ps D (home.path ++ [name]) (constants (home :: outer)) entry := by
  obtain ⟨hscoped, i, k, ⟨hmem, text, hentry⟩, hat, hleave⟩ := h
  refine ⟨hmem, text, i, hentry, Block.flow (Proceeds.flow J ps D) hat hscoped hd hg ?_⟩
  exact .step hleave trivial (by simp [Step.successors])

namespace Machine

variable {m : Machine} {o : Option Nat} {pl : Place} {r : Nat} {f : Store → Store}

theorem left_withStore (m : Machine) (pl : Place) (f : Store → Store) (r : Nat) :
    (m.withStore pl f).left r = (m.left r).withStore pl f := by
  cases pl with
  | outside => rfl
  | activation j =>
    have hcalls (g : Activation → Activation) : (m.calls.modify j g).pop = m.calls.pop.modify j g := by
      apply Array.ext_getElem?
      intro x
      simp only [Array.getElem?_pop, Array.getElem?_modify, Array.size_modify]
      split <;> simp
    simp only [left, withStore, hcalls]

/-- Leaving a procedure, the machine loses what is in the latest activation. -/
theorem left_withStore_latest (m : Machine) (f : Store → Store) (r : Nat) :
    (m.left r).withStore (.activation (m.calls.size - 1)) f = m.left r := by
  have hcalls (g : Activation → Activation) : m.calls.pop.modify (m.calls.size - 1) g = m.calls.pop := by
    apply Array.ext_getElem?
    intro x
    rw [Array.getElem?_modify]
    split
    · next hx =>
      rw [← hx, Array.getElem?_eq_none (by simp)]
      rfl
    · rfl
  simp only [left, withStore, hcalls]

theorem place?_left (h : m.place? o = some pl) (hne : pl ≠ .activation (m.calls.size - 1)) :
    (m.left r).place? o = some pl := by
  cases o with
  | none => exact h
  | some n =>
    obtain ⟨j, hj, rfl⟩ := Option.map_eq_some_iff.mp h
    have hlt := (Calls.latestBelow_spec hj).1
    have hlast : j ≠ m.calls.size - 1 := fun heq => hne (heq ▸ rfl)
    obtain ⟨k, hk⟩ : ∃ k, m.calls.size = k + 1 := ⟨m.calls.size - 1, by omega⟩
    have hbelow : m.calls.latestBelow n k = some j := by
      unfold Calls.latest? at hj
      rw [hk, Calls.latestBelow, Array.getElem?_eq_getElem (by omega)] at hj
      simp only at hj
      split at hj
      · cases hj
        omega
      · exact hj
    have hpop : Calls.latestBelow m.calls.pop n k = m.calls.latestBelow n k := by
      apply Calls.latestBelow_congr
      intro x hx
      rw [Array.getElem?_pop, if_pos (by omega)]
    simp only [place?, left, Calls.latest?, Array.size_pop, hk, Nat.add_sub_cancel, hpop, hbelow, Option.map_some]

theorem place?_of_back {a : Activation} (h : m.calls.back? = some a) :
    m.place? (some a.procedure) = some (.activation (m.calls.size - 1)) := by
  rw [Array.back?_eq_getElem?] at h
  have hlt : m.calls.size - 1 < m.calls.size := (Array.getElem?_eq_some_iff.mp h).1
  obtain ⟨k, hk⟩ : ∃ k, m.calls.size = k + 1 := ⟨m.calls.size - 1, by omega⟩
  rw [hk, Nat.add_sub_cancel] at h
  simp only [place?, Calls.latest?, hk, Calls.latestBelow, h, if_true, Option.map_some, Nat.add_sub_cancel]

theorem back_withStore {a : Activation} (h : m.calls.back? = some a) (pl : Place) (f : Store → Store) :
    ∃ a', (m.withStore pl f).calls.back? = some a' ∧ a'.procedure = a.procedure ∧ a'.returnTo = a.returnTo := by
  have hshape := congrArg List.getLast? (m.shape_withStore pl f)
  simp only [shape, List.getLast?_map, Array.getLast?_toList, h, Option.map_some] at hshape
  obtain ⟨a', ha', heq⟩ := Option.map_eq_some_iff.mp hshape
  obtain ⟨hp, hr⟩ := Prod.mk.inj heq
  exact ⟨a', ha', hp, hr⟩

theorem execute_load {e : Exec} {v : VarRef} {value readValue : Int32} (he : e.step = .load v)
    (hpl : m.place? v.owner = some pl) (hv : (m.store pl).value v.name = some value) :
    ∃ m', execute J readValue m e = .ok m' ∧ m'.stack = value :: m.stack := by
  have hfetch : m.fetch v e = .ok (value, m.withStore pl (·.touch v.name)) := by
    simp only [fetch, hpl, hv, Option.getD_some]
  refine ⟨((m.withStore pl (·.touch v.name)).push value).next, ?_, ?_⟩
  · simp only [execute, he, hfetch]
    rfl
  · cases pl <;> rfl

end Machine

/-- The machine has the values of these constants. -/
def Holds (ps : List (List String)) (m : Machine) (K : List Known) : Prop :=
  ∀ c ∈ K, ∃ pl, m.place? (owner ps c.scope) = some pl ∧ (m.store pl).value c.name = some c.value

/-- The procedure that runs goes on with constants that the machine has, and so will each of those below it when
the machine is back there. -/
inductive Keeps (J : JumpCode) (ps : List (List String)) (D : Declared → Prop) :
    Machine → List String → List Known → Prop
  | outside {m : Machine} {K : List Known} (hcalls : m.calls = #[]) (hholds : Holds ps m K)
    (hknown : ∀ c ∈ K, D c.declared) (hgoes : Proceeds J ps D [] K m.pc) : Keeps J ps D m [] K
  | inside {m : Machine} {a : Activation} {path path' : List String} {K K' : List Known}
    (hback : m.calls.back? = some a) (hproc : some a.procedure = owner ps path) (hmem : path ∈ ps)
    (hbelow : Keeps J ps D (m.left a.returnTo) path' K') (hholds : Holds ps m K)
    (hknown : ∀ c ∈ K, D c.declared) (hgoes : Proceeds J ps D path K m.pc) : Keeps J ps D m path K

theorem owner_inj (h : Listed ps scope) (heq : owner ps scope = owner ps path) : scope = path := by
  unfold owner at heq
  split at heq
  · next hnil =>
    split at heq
    · next hnil' => rw [hnil, hnil']
    · cases heq
  · next hne =>
    split at heq
    · cases heq
    · exact (List.idxOf_inj (h.resolve_left hne)).mp (Option.some.inj heq)

section

variable {m m' : Machine} {o : Option Nat} {pl : Place} {f : Store → Store}

theorem Holds.congr (h : Holds ps m K) (hc : m'.calls = m.calls) (hg : m'.globals = m.globals) : Holds ps m' K := by
  intro c hK
  obtain ⟨pl, hpl, hv⟩ := h c hK
  refine ⟨pl, ?_, ?_⟩
  · rw [← hpl]
    exact Machine.place?_congr (by rw [Machine.shape, hc]; rfl) _
  · rw [Machine.store_congr hg fun _ _ => by rw [hc], hv]

theorem Holds.withStore (h : Holds ps m K) (hpl : m.place? o = some pl)
    (hf : ∀ c ∈ K, owner ps c.scope = o → ∀ st, (f st).value c.name = st.value c.name) :
    Holds ps (m.withStore pl f) K := by
  intro c hK
  obtain ⟨pl', hpl', hv⟩ := h c hK
  refine ⟨pl', (Machine.place?_congr (Machine.shape_withStore m pl f) _).trans hpl', ?_⟩
  rw [Machine.store_withStore hpl]
  split
  · next heq =>
    subst heq
    rw [hf c hK (Machine.place?_inj hpl' hpl), hv]
  · exact hv

/-- A constant gets its value; one that was known before has the same value. -/
theorem Holds.learn (hD : ∀ {scope : List String} {e e' : ScopeEntry}, D (scope, e) → D (scope, e') →
      e.name = e'.name → e.kind = e'.kind) {value : Int32} (h : Holds ps m K) (hknown : ∀ c ∈ K, D c.declared)
    (hlisted : Listed ps path) (hd : D (path, .const name value)) (hpl : m.place? (owner ps path) = some pl) :
    Holds ps (m.withStore pl (·.set name (some value))) (⟨path, name, value⟩ :: K) := by
  have hplace (o : Option Nat) := Machine.place?_congr (m.shape_withStore pl (·.set name (some value))) o
  intro c hc
  rcases List.mem_cons.mp hc with rfl | hc
  · refine ⟨pl, (hplace _).trans hpl, ?_⟩
    rw [Machine.store_withStore hpl, if_pos rfl, Store.value_set, if_pos rfl]
  · obtain ⟨pl', hpl', hv⟩ := h c hc
    refine ⟨pl', (hplace _).trans hpl', ?_⟩
    rw [Machine.store_withStore hpl]
    split
    · next heq =>
      subst heq
      have hscope := owner_inj hlisted (Machine.place?_inj hpl hpl')
      rw [Store.value_set]
      split
      · next hname =>
        have hc' : D (path, .const c.name c.value) := hscope ▸ hknown c hc
        cases hD hd hc' hname
        rfl
      · exact hv
    · exact hv

namespace Keeps

theorem goes (h : Keeps J ps D m path K) : Proceeds J ps D path K m.pc := by
  cases h with
  | outside _ _ _ hgoes => exact hgoes
  | inside _ _ _ _ _ _ hgoes => exact hgoes

theorem holds (h : Keeps J ps D m path K) : Holds ps m K := by
  cases h with
  | outside _ hholds => exact hholds
  | inside _ _ _ _ hholds => exact hholds

theorem known (h : Keeps J ps D m path K) : ∀ c ∈ K, D c.declared := by
  cases h with
  | outside _ _ hknown => exact hknown
  | inside _ _ _ _ _ hknown => exact hknown

theorem listed (h : Keeps J ps D m path K) : Listed ps path := by
  cases h with
  | outside => exact .inl rfl
  | inside _ _ hmem => exact .inr hmem

theorem moved (h : Keeps J ps D m path K) (hc : m'.calls = m.calls) (hg : m'.globals = m.globals)
    (hgoes : Proceeds J ps D path K m'.pc) : Keeps J ps D m' path K := by
  induction h generalizing m' with
  | outside hcalls hholds hknown _ => exact .outside (hc.trans hcalls) (hholds.congr hc hg) hknown hgoes
  | @inside m a path path' K K' hback hproc hmem hbelow hholds hknown _ ih =>
    have hleft : Keeps J ps D (m'.left a.returnTo) path' K' :=
      ih (by simp only [Machine.left, hc]) hg hbelow.goes
    exact .inside (hc ▸ hback) hproc hmem hleft (hholds.congr hc hg) hknown hgoes

theorem withStore (h : Keeps J ps D m path K) (hpl : m.place? o = some pl)
    (hf : ∀ c : Known, D c.declared → owner ps c.scope = o → ∀ st, (f st).value c.name = st.value c.name) :
    Keeps J ps D (m.withStore pl f) path K := by
  have hpc (m : Machine) : (m.withStore pl f).pc = m.pc := (m.stays_withStore pl f).pc
  induction h with
  | @outside m K hcalls hholds hknown hgoes =>
    refine .outside ?_ (hholds.withStore hpl fun c hc => hf c (hknown c hc)) hknown (hpc m ▸ hgoes)
    have hsize := Machine.size_of_shape (m.shape_withStore pl f)
    rw [hcalls] at hsize
    exact Array.size_eq_zero_iff.mp hsize
  | @inside m a path path' K K' hback hproc hmem hbelow hholds hknown hgoes ih =>
    obtain ⟨a', ha', hp, hr⟩ := Machine.back_withStore hback pl f
    have hbelow' : Keeps J ps D ((m.withStore pl f).left a'.returnTo) path' K' := by
      rw [hr, Machine.left_withStore]
      by_cases htop : pl = .activation (m.calls.size - 1)
      · rw [htop, Machine.left_withStore_latest]
        exact hbelow
      · exact ih (Machine.place?_left hpl htop)
    exact .inside ha' (hp ▸ hproc) hmem hbelow' (hholds.withStore hpl fun c hc => hf c (hknown c hc)) hknown
      (hpc m ▸ hgoes)

theorem pop {e : Exec} {v : Int32} (h : Keeps J ps D m path K) (hp : m.pop e = .ok (v, m')) :
    Keeps J ps D m' path K := by
  unfold Machine.pop at hp
  split at hp
  · cases hp
    exact h.moved rfl rfl h.goes
  · cases hp

theorem fetch {e : Exec} {v : VarRef} {w : Int32} (h : Keeps J ps D m path K) (hf : m.fetch v e = .ok (w, m')) :
    Keeps J ps D m' path K := by
  unfold Machine.fetch at hf
  split at hf
  · next hpl =>
    cases hf
    exact h.withStore hpl fun c _ _ st => Store.value_touch st v.name c.name
  · cases hf

section

variable (hD : ∀ {scope : List String} {e e' : ScopeEntry}, D (scope, e) → D (scope, e') → e.name = e'.name →
  e.kind = e'.kind) {e : Exec} {readValue : Int32}

include hD

theorem assign {v : VarRef} {value : Option Int32} (h : Keeps J ps D m path K)
    (hv : ∃ scope, Listed ps scope ∧ v.owner = owner ps scope ∧ D (scope, .var v.name))
    (ha : m.assign v value e = .ok m') : Keeps J ps D m' path K := by
  obtain ⟨scope, hlisted, howner, hvar⟩ := hv
  unfold Machine.assign at ha
  split at ha
  · next hpl =>
    cases ha
    refine h.withStore hpl ?_
    intro c hc hscope st
    rw [howner] at hscope
    obtain rfl := owner_inj hlisted hscope.symm
    -- a constant has another name than a variable of its scope
    rw [Store.value_set, if_neg]
    intro hname
    cases hD hvar hc hname
  · cases ha

theorem learn {pc : Nat} {value : Int32} (h : Keeps J ps D m path K) (hd : D (path, .const name value))
    (hpl : m.place? (owner ps path) = some pl) (hgoes : Proceeds J ps D path (⟨path, name, value⟩ :: K) pc) :
    Keeps J ps D ((m.withStore pl (·.set name (some value))).goTo pc) path (⟨path, name, value⟩ :: K) := by
  have hnew : ∀ c ∈ (⟨path, name, value⟩ :: K : List Known), D c.declared :=
    List.forall_mem_cons.mpr ⟨hd, h.known⟩
  have hholds : Holds ps ((m.withStore pl (·.set name (some value))).goTo pc) (⟨path, name, value⟩ :: K) :=
    (h.holds.learn hD h.known h.listed hd hpl).congr rfl rfl
  cases h with
  | outside hcalls _ _ _ =>
    cases hpl
    exact .outside hcalls hholds hnew hgoes
  | @inside _ a _ path' _ K' hback hproc hmem hbelow _ _ _ =>
    obtain ⟨a', ha', hp, hr⟩ := Machine.back_withStore hback pl (·.set name (some value))
    have hbelow' : Keeps J ps D (((m.withStore pl (·.set name (some value))).goTo pc).left a'.returnTo) path' K' := by
      rw [← hproc, Machine.place?_of_back hback] at hpl
      cases hpl
      have hleft := Machine.left_withStore m (.activation (m.calls.size - 1)) (·.set name (some value)) a.returnTo
      rw [Machine.left_withStore_latest] at hleft
      rw [hr]
      exact hleft.symm ▸ hbelow
    exact .inside ha' (hp ▸ hproc) hmem hbelow' hholds hnew hgoes

omit hD in
/-- A call, of a procedure that needs no other constants than those known. -/
theorem call {home : Layer} {entry : Nat} (h : Keeps J ps D m path K)
    (hg : Ground J ps D (home :: outer) (home.inside name)) (hmem : home.path ++ [name] ∈ ps)
    (hK : constants (home :: outer) ⊆ K) (hgoes : Proceeds J ps D path K (m.pc + 1))
    (hentry : Proceeds J ps D (home.path ++ [name]) (constants (home :: outer)) entry) :
    Keeps J ps D (m.entered (ps.idxOf (home.path ++ [name])) entry (m.pc + 1)) (home.path ++ [name])
      (constants (home :: outer)) := by
  have howner : owner ps (home.path ++ [name]) = some (ps.idxOf (home.path ++ [name])) := if_neg (by simp)
  have hback : (m.entered (ps.idxOf (home.path ++ [name])) entry (m.pc + 1)).calls.back? =
      some ⟨ps.idxOf (home.path ++ [name]), ∅, m.pc + 1⟩ := by
    simp [Machine.entered]
  have hbelow : Keeps J ps D ((m.entered (ps.idxOf (home.path ++ [name])) entry (m.pc + 1)).left (m.pc + 1)) path K :=
    h.moved (by simp [Machine.left, Machine.entered]) rfl hgoes
  refine .inside hback howner.symm hmem hbelow ?_ (fun c hc => h.known c (hK hc)) hentry
  intro c hc
  obtain ⟨pl, hpl, hv⟩ := h.holds c (hK hc)
  refine ⟨pl, ?_, by rw [Machine.store_entered, hv]⟩
  rw [← hpl]
  apply Machine.place?_entered
  -- a constant in sight is not one of the procedure itself
  intro hsame
  obtain ⟨b, hb, hpath, -⟩ := mem_constants.mp hc
  have hlt := hg.setting.nested.length_lt hb
  rw [← howner] at hsame
  rw [hpath, ← owner_inj (.inr hmem) hsame.symm] at hlt
  exact lt_irrefl _ hlt

omit hD in
theorem leave (h : Keeps J ps D m path K) (he : e.step = .leave)
    (hm : Machine.execute J readValue m e = .ok m') : ∃ path' K', Keeps J ps D m' path' K' := by
  simp only [Machine.execute, he] at hm
  split at hm
  · next a ha =>
    cases hm
    cases h with
    | outside hcalls =>
      rw [hcalls] at ha
      cases ha
    | inside hback _ _ hbelow =>
      obtain rfl := Option.some.inj (ha.symm.trans hback)
      exact ⟨_, _, hbelow⟩
  · cases hm

theorem execute (h : Keeps J ps D m path K) (he : J.code[m.pc]? = some e)
    (hm : Machine.execute J readValue (m.count e) e = .ok m') : ∃ path' K', Keeps J ps D m' path' K' := by
  have h0 : Keeps J ps D (m.count e) path K := h.moved rfl rfl h.goes
  rcases h.goes.first with ⟨step, line, hs, hsuits, hnext⟩ | hend
  · obtain rfl := Option.some.inj (hs.symm.trans he)
    obtain ⟨hmoves, -⟩ := execute_moves hm
    cases step with
    | load v =>
      obtain ⟨⟨w, m1⟩, h1, hm⟩ := ok_of_bind hm
      cases hm
      exact ⟨path, K, (h0.fetch h1).moved rfl rfl (hnext _ hmoves.1)⟩
    | declare v | read v =>
      obtain ⟨m1, h1, hm⟩ := ok_of_bind hm
      cases hm
      exact ⟨path, K, (h0.assign hD hsuits h1).moved rfl rfl (hnext _ hmoves.1)⟩
    | store v =>
      obtain ⟨⟨w, m1⟩, h1, hm⟩ := ok_of_bind hm
      obtain ⟨m2, h2, hm⟩ := ok_of_bind hm
      cases hm
      exact ⟨path, K, ((h0.pop h1).assign hD hsuits h2).moved rfl rfl (hnext _ hmoves.1)⟩
    | forStep v head =>
      obtain ⟨⟨w, m1⟩, h1, hm⟩ := ok_of_bind hm
      obtain ⟨m2, h2, hm⟩ := ok_of_bind hm
      cases hm
      exact ⟨path, K, ((h0.fetch h1).assign hD hsuits h2).moved rfl rfl (hnext _ hmoves.1)⟩
    | forTest v exit =>
      obtain ⟨⟨w, m1⟩, h1, hm⟩ := ok_of_bind hm
      obtain ⟨⟨w', m2⟩, h2, hm⟩ := ok_of_bind hm
      have h2 := (h0.pop h1).fetch h2
      have hgoes := hnext _ hmoves.1
      cases hm
      split at hgoes
      · next hle => exact ⟨path, K, by rw [if_pos hle]; exact h2.moved rfl rfl hgoes⟩
      · next hle => exact ⟨path, K, by rw [if_neg hle]; exact h2.moved rfl rfl hgoes⟩
    | const v value =>
      obtain ⟨howner, hd⟩ := hsuits
      obtain ⟨m1, h1, hm⟩ := ok_of_bind hm
      have hgoes := hnext _ hmoves.1
      cases hm
      unfold Machine.assign at h1
      split at h1
      · next pl hpl =>
        cases h1
        rw [howner] at hpl
        exact ⟨path, _, h0.learn hD hd hpl hgoes⟩
      · cases h1
    | oper op =>
      obtain ⟨⟨r, m1⟩, h1, hm⟩ := ok_of_bind hm
      obtain ⟨⟨l, m2⟩, h2, hm⟩ := ok_of_bind hm
      have h2 := (h0.pop h1).pop h2
      simp only at hm
      split at hm
      · cases hm
        exact ⟨path, K, h2.moved rfl rfl (hnext _ hmoves.1)⟩
      · cases hm
    | write =>
      obtain ⟨⟨w, m1⟩, h1, hm⟩ := ok_of_bind hm
      cases hm
      exact ⟨path, K, (h0.pop h1).moved rfl rfl (hnext _ hmoves.1)⟩
    | jumpIfFalse target =>
      obtain ⟨⟨w, m1⟩, h1, hm⟩ := ok_of_bind hm
      have h1 := h0.pop h1
      have hgoes := hnext _ hmoves.1
      cases hm
      split at hgoes
      · next hzero => exact ⟨path, K, by rw [if_pos hzero]; exact h1.moved rfl rfl hgoes⟩
      · next hzero => exact ⟨path, K, by rw [if_neg hzero]; exact h1.moved rfl rfl hgoes⟩
    | push value | jump target =>
      cases hm
      exact ⟨path, K, h0.moved rfl rfl (hnext _ hmoves.1)⟩
    | call n =>
      obtain ⟨home, outer, name, body, rfl, hstanding, hcat, hg, hK⟩ := hsuits
      obtain ⟨hmem, text, entry, hproc, hentry⟩ := hstanding.proceeds hcat hg
      simp only [Machine.execute, hproc] at hm
      cases hm
      exact ⟨_, _, h0.call hg hmem hK (hnext _ (List.mem_singleton_self _)) hentry⟩
    | leave => exact h0.leave rfl hm
  · rw [hend, Array.getElem?_eq_none le_rfl] at he
    cases he

theorem of_reachable (hstart : Proceeds J ps D [] [] 0) (h : Reachable J readValue m) :
    ∃ path K, Keeps J ps D m path K := by
  induction h with
  | initial => exact ⟨[], [], .outside rfl (fun _ hc => by cases hc) (fun _ hc => by cases hc) hstart⟩
  | step _ he hm ih =>
    obtain ⟨path, K, hk⟩ := ih
    exact hk.execute hD he hm

end

end Keeps

end

/-- The owner that the variables of a scope have in jump code. -/
def JumpCode.owner? (J : JumpCode) (path : List String) : Option (Option Nat) :=
  if path.isEmpty then some none else (J.number? (dotted path)).map some

theorem JumpCode.number?_eq (hnames : J.procedures.toList.map (·.name) = ps.map dotted) (hps : Distinct ps)
    (hmem : path ∈ ps) : J.number? (dotted path) = some (ps.idxOf path) := by
  have hlist : J.number? (dotted path) = (J.procedures.toList.map (·.name)).findIdx? (· == dotted path) := by
    rw [List.findIdx?_map, ← List.findIdx?_toArray, Array.toArray_toList]
    rfl
  rw [hlist, hnames, List.findIdx?_map, List.findIdx?_eq_some_iff_getElem]
  have hlt : ps.idxOf path < ps.length := List.idxOf_lt_length_iff.mpr hmem
  refine ⟨hlt, by simp, ?_⟩
  intro j hj
  have hother : ps[j] ≠ path := by simpa using List.not_of_lt_findIdx hj
  simpa using hps.dotted_ne (List.getElem_mem _) hmem hother

theorem JumpCode.owner?_eq (hnames : J.procedures.toList.map (·.name) = ps.map dotted) (hps : Distinct ps)
    (h : Listed ps path) : J.owner? path = some (owner ps path) := by
  unfold owner? owner
  rcases h with rfl | hmem
  · rfl
  · have hne : path ≠ [] := hps.nonempty path hmem
    rw [JumpCode.number?_eq hnames hps hmem, if_neg (by simpa using hne), if_neg hne]
    rfl

end Replay

open Replay

theorem exists_of_forall₂ {α β : Type} {R : α → β → Prop} {as : List α} {bs : List β} {b : β}
    (h : List.Forall₂ R as bs) (hb : b ∈ bs) : ∃ a, R a b := by
  induction h with
  | nil => cases hb
  | @cons a _ _ _ hr _ ih =>
    rcases List.mem_cons.mp hb with rfl | hb
    · exact ⟨a, hr⟩
    · exact ih hb

theorem Reference.Resolved.stores {t : Table} {r : Reference} {c : Placed} {name : String} (h : r.Resolved t c)
    (hop : c.instr.op ∈ [.store name, .read name, .forInit name]) :
    ∃ path s, c.scopes.resolve name = some path ∧ t.entry? path name = some s ∧ s.kind = .var := by
  obtain ⟨hi, hmatch⟩ := h
  rw [hi] at hop
  simp only [List.mem_cons, List.not_mem_nil, or_false] at hop
  rcases hop with hop | hop | hop
  all_goals
    rw [hop] at hmatch
    obtain ⟨path, s, -, hkind, hs, hresolve⟩ := hmatch
    exact ⟨path, s, hresolve, hs, hkind⟩

namespace Program

variable {source : String} {p : Program} {t : Table} {J : JumpCode}

/-- What a step that loads a name finds in any state of a replay: the symbol, and the value of a constant. -/
theorem load_finds {readValue : Int32} {m : Machine} {v : VarRef} {line : Option Nat}
    (hp : Program.ofSource source = .ok p) (ht : p.analyze = .ok t)
    (hat : Block.AtAll J (procedurePaths p.declared) [] .initial p.blocks 0 J.code.size)
    (hm : Reachable J readValue m) (he : J.code[m.pc]? = some ⟨.load v, line⟩) :
    ∃ path e, Listed (procedurePaths p.declared) path ∧ v.owner = owner (procedurePaths p.declared) path ∧
      (path, e) ∈ p.declared ∧ e.name = v.name ∧ e.isProcedure = false ∧
      ∀ value, e = .const v.name value →
        ∃ m', Machine.execute J readValue (m.count ⟨.load v, line⟩) ⟨.load v, line⟩ = .ok m' ∧
          m'.stack = value :: m.stack := by
  have hscoped := Program.scoped_of_source hp ht
  have htable := declared_in_table hp ht
  have hD : ∀ {scope : List String} {e e' : ScopeEntry}, (scope, e) ∈ p.declared → (scope, e') ∈ p.declared →
      e.name = e'.name → e.kind = e'.kind := fun h h' => (htable _ h).kind_eq (htable _ h')
  have hstart : Proceeds J (procedurePaths p.declared) (· ∈ p.declared) [] [] 0 := by
    refine Block.flowAll (Proceeds.flow J _ _) hat hscoped (fun _ hd => hd) .initial ?_
    rw [Block.afterAll_path]
    exact .ended
  obtain ⟨path, K, hk⟩ := Keeps.of_reachable hD hstart hm
  rcases hk.goes.first with ⟨step, line', hs, hsuits, -⟩ | hend
  · cases Option.some.inj (hs.symm.trans he)
    obtain ⟨scope, e, hlisted, howner, hd, hname, hproc, hconst⟩ := hsuits
    refine ⟨scope, e, hlisted, howner, hd, hname, hproc, ?_⟩
    intro value hvalue
    obtain ⟨pl, hpl, hv⟩ := hk.holds _ (hconst value hvalue)
    exact Machine.execute_load (m := m.count _) rfl (howner ▸ hpl) hv
  · rw [hend, Array.getElem?_eq_none le_rfl] at he
    cases he

/-- The value that a replay shows for a constant is the one in the table. -/
theorem constant_of_mem_bindings {value : List String → String → Option Int32} {b : Binding}
    (hp : Program.ofSource source = .ok p) (ht : p.analyze = .ok t)
    (hb : b ∈ t.bindings fun path name _ => value path name) (hkind : b.kind = .constant) :
    ∃ s v, t.entry? b.path b.name = some s ∧ s.kind = .const v ∧ b.value = some v := by
  rw [bindings_eq value hp ht] at hb
  obtain ⟨⟨path, e⟩, hd, hbind⟩ := List.mem_filterMap.mp hb
  cases e with
  | var n =>
    cases hbind
    cases hkind
  | procedure n body => cases hbind
  | const n v =>
    cases hbind
    obtain ⟨s, hs, hk⟩ := declared_in_table hp ht _ hd
    exact ⟨s, v, hs, hk, rfl⟩

/-- Constants are the same in the code of a program, in its table and in its replay. -/
structure KeepsConstants (p : Program) (t : Table) (J : JumpCode) : Prop where
  /-- Constants, and variables that are declared with a value, have the value in the table. -/
  recorded : List.Forall₂ (Declaration.Recorded t) p.declarations (bindingsIn p.code)
  /-- Nothing is stored to a constant. -/
  stored : ∀ c ∈ usesIn p.code, ∀ name, c.instr.op ∈ [.store name, .read name, .forInit name] →
    ∃ path s, c.scopes.resolve name = some path ∧ t.entry? path name = some s ∧ s.kind = .var
  /-- The value that is shown for a constant is the one in the table. -/
  shown : ∀ m line, ∀ b ∈ (Prepared.snapshot ⟨J, t⟩ m line).bindings, b.kind = .constant →
    ∃ s value, t.entry? b.path b.name = some s ∧ s.kind = .const value ∧ b.value = some value
  /-- A step that loads a name loads the value of a symbol in the table, and for a constant the value that the
  table has and that is shown. -/
  loaded : ∀ readValue m, Reachable J readValue m → ∀ v line, J.code[m.pc]? = some ⟨.load v, line⟩ →
    ∃ path s, J.owner? path = some v.owner ∧ t.entry? path v.name = some s ∧ s.kind ≠ .procedure ∧
      ∀ value, s.kind = .const value →
        (∃ m', Machine.execute J readValue (m.count ⟨.load v, line⟩) ⟨.load v, line⟩ = .ok m' ∧
          m'.stack = value :: m.stack) ∧
        ∀ line, ⟨v.name, some value, .constant, path⟩ ∈ (Prepared.snapshot ⟨J, t⟩ m line).bindings

/-- The constants of an accepted program are constant, and known alike everywhere. -/
theorem constants_keep_values (hp : Program.ofSource source = .ok p) (ht : p.analyze = .ok t) :
    ∃ J, JumpCode.ofCode p.code = .ok J ∧ p.KeepsConstants t J := by
  have hscoped := Program.scoped_of_source hp ht
  have hagree := Program.agree ht
  obtain ⟨J, hJ, hat, hnames⟩ := p.lowers_numbered hscoped
  refine ⟨J, hJ, hagree.declarations, ?_, fun m line b hb => constant_of_mem_bindings hp ht hb, ?_⟩
  · intro c hc name hop
    obtain ⟨r, hr⟩ := exists_of_forall₂ hagree.references hc
    exact hr.stores hop
  · intro readValue m hm v line he
    obtain ⟨path, e, hlisted, howner, hd, hname, hproc, hconst⟩ := load_finds hp ht hat hm he
    obtain ⟨s, hs, hk⟩ := declared_in_table hp ht _ hd
    refine ⟨path, s, ?_, hname ▸ hs, ?_, ?_⟩
    · rw [howner]
      exact JumpCode.owner?_eq hnames (p.procedurePaths_distinct hscoped) hlisted
    · rw [hk]
      cases e with
      | var n | const n w => nofun
      | procedure n body => cases hproc
    · intro value hvalue
      obtain rfl : e = .const v.name value := by
        cases e with
        | const n w =>
          obtain rfl : n = v.name := hname
          exact congrArg _ (Kind.const.inj (hk.symm.trans hvalue))
        | var n => cases hk.symm.trans hvalue
        | procedure n body => cases hproc
      refine ⟨hconst value rfl, ?_⟩
      intro line
      change _ ∈ t.bindings _
      rw [bindings_eq _ hp ht]
      exact List.mem_filterMap.mpr ⟨_, hd, rfl⟩

/-- A constant that is defined by another one is loaded in the second step. -/
theorem constants_keep_values_named : ∃ p t J, Program.ofSource "const c = 2, d = c; write d;" = .ok p ∧
    p.analyze = .ok t ∧ JumpCode.ofCode p.code = .ok J ∧ p.KeepsConstants t J ∧
    ∃ m, Reachable J 1 m ∧ J.code[m.pc]? = some ⟨.load ⟨none, "d"⟩, some 1⟩ := by
  obtain ⟨p, t, hp, ht⟩ : ∃ p t, Program.ofSource "const c = 2, d = c; write d;" = .ok p ∧ p.analyze = .ok t :=
    ⟨_, _, rfl, rfl⟩
  obtain ⟨J, hJ, hkeeps⟩ := constants_keep_values hp ht
  refine ⟨p, t, J, hp, ht, hJ, hkeeps, ?_⟩
  cases hp
  cases hJ
  exact ⟨_, .step (.step .initial rfl rfl) rfl rfl, rfl⟩

end Program

end PLZero
