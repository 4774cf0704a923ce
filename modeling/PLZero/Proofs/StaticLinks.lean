import PLZero.Proofs.ReplaySafe
import PLZero.Proofs.Resumes

/-! Variables by static links. Give every activation, when it is called, a link to the activation of the
procedure that declares it, found on the static chain of the caller. The latest activation of the owner of a
variable, where the replay machine looks, is the activation of the owner on the static chain of the procedure
that runs. -/

namespace PLZero

namespace Replay

/-- The variable that a step reads or writes. -/
def Step.variable? : Step → Option VarRef
  | .declare v | .const v _ | .load v | .store v | .read v | .forTest v _ | .forStep v _ => some v
  | _ => none

/-- The procedure that declares the procedure with this number, none if it is declared outside procedures. -/
def declarer (ps : List (List String)) (n : Nat) : Option Nat := ps[n]?.bind fun path => owner ps path.dropLast

/-- For every activation, the latest first, the position of the activation that it is linked to. -/
abbrev Links := List (Option Nat)

namespace Links

/-- The static chain from an activation on: its position, and the chain of what it is linked to. -/
def chain : Links → Nat → List Nat
  | [], _ => []
  | link :: below, k => if k = below.length then k :: link.elim [] (chain below) else chain below k

def current (links : Links) : List Nat := links.chain (links.length - 1)

end Links

namespace Machine

def procedureAt (m : Machine) (k : Nat) : Option Nat := m.calls[k]?.map (·.procedure)

/-- The links behind a step: a call adds one and a return takes one away. -/
def relink (ps : List (List String)) (m : Machine) (links : Links) : Step → Links
  | .call n => ((declarer ps n).bind fun q => links.current.find? (m.procedureAt · = some q)) :: links
  | .leave => links.tail
  | _ => links

/-- The activation at `k` is the one activation of `q` on the static chain of the latest one. -/
def OnlyOn (m : Machine) (links : Links) (q k : Nat) : Prop :=
  k ∈ links.current ∧ m.procedureAt k = some q ∧ ∀ k' ∈ links.current, m.procedureAt k' = some q → k' = k

end Machine

/-- States that the machine can come to, with the links of their activations. -/
inductive Linked (J : JumpCode) (ps : List (List String)) (readValue : Int32) : Machine → Links → Prop
  | initial : Linked J ps readValue .initial []
  | step {m m' : Machine} {links : Links} {e : Exec} (h : Linked J ps readValue m links)
    (he : J.code[m.pc]? = some e) (hm : Machine.execute J readValue (m.count e) e = .ok m') :
    Linked J ps readValue m' (m.relink ps links e.step)

variable {J : JumpCode} {ps : List (List String)} {readValue : Int32} {m : Machine} {links : Links}
  {acts : List (Nat × Nat)} {path scope : List String}

theorem Reachable.linked (ps : List (List String)) (h : Reachable J readValue m) :
    ∃ links, Linked J ps readValue m links := by
  induction h with
  | initial => exact ⟨[], .initial⟩
  | step _ he hm ih =>
    obtain ⟨links, hl⟩ := ih
    exact ⟨_, hl.step he hm⟩

/-! Activations as pairs of a procedure and where it returns to, the latest first. -/

/-- The position of the latest activation of a procedure. -/
def latestIn : List (Nat × Nat) → Nat → Option Nat
  | [], _ => none
  | a :: below, n => if a.1 = n then some below.length else latestIn below n

def procedureIn (acts : List (Nat × Nat)) (k : Nat) : Option Nat := acts.reverse[k]?.map (·.1)

theorem latestIn_spec {n k : Nat} (h : latestIn acts n = some k) : k < acts.length ∧ procedureIn acts k = some n := by
  induction acts with
  | nil => cases h
  | cons a below ih =>
    unfold latestIn at h
    split at h
    · next ha =>
      cases h
      simp [procedureIn, ha]
    · obtain ⟨hlt, hproc⟩ := ih h
      refine ⟨Nat.lt_succ_of_lt hlt, ?_⟩
      rw [procedureIn, List.reverse_cons, List.getElem?_append_left (by simpa using hlt)]
      exact hproc

/-- The link of a procedure declared by `q` and called with these links. -/
def linkTo (acts : List (Nat × Nat)) (links : Links) (q : Option Nat) : Option Nat :=
  q.bind fun n => links.current.find? (procedureIn acts · = some n)

/-- Activations with their links, and the path of the procedure that runs: every procedure was called where
it is in sight, from a procedure that goes on where the call returns to. -/
inductive Stacked (J : JumpCode) (ps : List (List String)) : List (Nat × Nat) → Links → List String → Prop
  | outside : Stacked J ps [] [] []
  | call {acts : List (Nat × Nat)} {links : Links} {path scope : List String} {name : String} {r : Nat}
    (h : Stacked J ps acts links path) (hr : Resumes J ps path r) (hscope : scope <+: path)
    (hmem : scope ++ [name] ∈ ps) :
    Stacked J ps ((ps.idxOf (scope ++ [name]), r) :: acts) (linkTo acts links (owner ps scope) :: links)
      (scope ++ [name])

namespace Stacked

theorem length_eq (h : Stacked J ps acts links path) : links.length = acts.length := by
  induction h with
  | outside => rfl
  | call _ _ _ _ ih => rw [List.length_cons, List.length_cons, ih]

/-- The procedures around the one that runs have numbers. -/
theorem mem (h : Stacked J ps acts links path) (hne : scope ≠ []) (hs : scope <+: path) : scope ∈ ps := by
  induction h with
  | outside => exact absurd (List.prefix_nil.mp hs) hne
  | call _ _ hscope hmem ih =>
    rcases List.prefix_concat_iff.mp hs with rfl | hs
    · exact hmem
    · exact ih (hs.trans hscope)

theorem latest_self (h : Stacked J ps acts links path) (hne : path ≠ []) :
    latestIn acts (ps.idxOf path) = some (links.length - 1) := by
  rw [h.length_eq]
  cases h with
  | outside => exact absurd rfl hne
  | call => simp [latestIn]

end Stacked

/-- The chain from the latest activation of a procedure around `path` on holds the latest activations of the
procedures around that one. -/
def Chained (ps : List (List String)) (acts : List (Nat × Nat)) (links : Links) (path : List String) : Prop :=
  ∀ scope, scope ≠ [] → scope <+: path → ∃ k, latestIn acts (ps.idxOf scope) = some k ∧
    ∀ k', k' ∈ links.chain k ↔ ∃ around, around ≠ [] ∧ around <+: scope ∧ latestIn acts (ps.idxOf around) = some k'

namespace Stacked

/-- The latest activation of a procedure around the one that runs is the only one on the current chain. -/
theorem only (h : Stacked J ps acts links path) (hc : Chained ps acts links path) (hne : scope ≠ [])
    (hs : scope <+: path) : ∃ k, latestIn acts (ps.idxOf scope) = some k ∧ k ∈ links.current ∧
      ∀ k' ∈ links.current, procedureIn acts k' = some (ps.idxOf scope) → k' = k := by
  have hpath : path ≠ [] := fun hnil => hne (List.prefix_nil.mp (hnil ▸ hs))
  obtain ⟨top, htop, hcurrent⟩ := hc path hpath List.prefix_rfl
  obtain rfl := Option.some.inj ((h.latest_self hpath).symm.trans htop)
  obtain ⟨k, hk, -⟩ := hc scope hne hs
  refine ⟨k, hk, (hcurrent k).mpr ⟨scope, hne, hs, hk⟩, fun k' hk' hproc => ?_⟩
  obtain ⟨around, hne', hs', hlatest⟩ := (hcurrent k').mp hk'
  -- two procedures with one number are one
  have hnum := Option.some.inj ((latestIn_spec hlatest).2.symm.trans hproc)
  obtain rfl := (List.idxOf_inj (h.mem hne' hs')).mp hnum
  exact Option.some.inj (hlatest.symm.trans hk)

/-- The link that a call sets is the latest activation of the declaring procedure. -/
theorem linkTo_eq (h : Stacked J ps acts links path) (hc : Chained ps acts links path) (hne : scope ≠ [])
    (hs : scope <+: path) : linkTo acts links (owner ps scope) = latestIn acts (ps.idxOf scope) := by
  obtain ⟨k, hk, hmem, honly⟩ := h.only hc hne hs
  rw [linkTo, owner, if_neg hne, Option.bind_some, hk]
  cases hfind : links.current.find? (procedureIn acts · = some (ps.idxOf scope)) with
  | none => exact absurd (latestIn_spec hk).2 (by simpa using List.find?_eq_none.mp hfind k hmem)
  | some k' =>
    have hproc : procedureIn acts k' = some (ps.idxOf scope) := by simpa using List.find?_some hfind
    rw [honly k' (List.mem_of_find?_eq_some hfind) hproc]

theorem chained (h : Stacked J ps acts links path) : Chained ps acts links path := by
  induction h with
  | outside => exact fun scope hne hs => absurd (List.prefix_nil.mp hs) hne
  | @call acts links path home name r h hr hhome hmem ih =>
    -- the new activation is not one of a procedure around it
    have hsame {around : List String} (hne : around ≠ []) (hs : around <+: home) :
        latestIn ((ps.idxOf (home ++ [name]), r) :: acts) (ps.idxOf around) = latestIn acts (ps.idxOf around) := by
      refine if_neg fun hnum => ?_
      have hle := hs.length_le
      rw [← (List.idxOf_inj hmem).mp hnum, List.length_append, List.length_singleton] at hle
      omega
    have hlen := h.length_eq
    intro scope hne hs
    rcases List.prefix_concat_iff.mp hs with rfl | hs
    · have hrest (k' : Nat) : k' ∈ (linkTo acts links (owner ps home)).elim [] links.chain ↔
          ∃ around, around ≠ [] ∧ around <+: home ∧ latestIn acts (ps.idxOf around) = some k' := by
        by_cases hnil : home = []
        · simp [hnil, linkTo, owner]
        · obtain ⟨k, hk, hchain⟩ := ih home hnil hhome
          rw [h.linkTo_eq ih hnil hhome, hk, Option.elim_some, hchain]
      refine ⟨acts.length, if_pos rfl, fun k' => ?_⟩
      rw [Links.chain, if_pos hlen.symm, List.mem_cons, hrest]
      constructor
      · rintro (rfl | ⟨around, hne', hs', hk⟩)
        · exact ⟨_, hne, hs, if_pos rfl⟩
        · exact ⟨around, hne', hs'.trans (List.prefix_append ..), (hsame hne' hs').trans hk⟩
      · rintro ⟨around, hne', hs', hk⟩
        rcases List.prefix_concat_iff.mp hs' with rfl | hs'
        · exact .inl (Option.some.inj ((if_pos rfl).symm.trans hk)).symm
        · exact .inr ⟨around, hne', hs', (hsame hne' hs').symm.trans hk⟩
    · obtain ⟨k, hk, hchain⟩ := ih scope hne (hs.trans hhome)
      refine ⟨k, (hsame hne hs).trans hk, fun k' => ?_⟩
      have hlt := (latestIn_spec hk).1
      rw [Links.chain, if_neg (by omega), hchain]
      refine exists_congr fun around => and_congr_right fun hne' => and_congr_right fun hs' => ?_
      rw [hsame hne' (hs'.trans hs)]

end Stacked

theorem procedureIn_shape (m : Machine) (k : Nat) : procedureIn m.shape.reverse k = m.procedureAt k := by
  simp [procedureIn, Machine.procedureAt, Machine.shape, Function.comp_def]

theorem latestIn_shape (m : Machine) (n : Nat) : latestIn m.shape.reverse n = m.calls.latest? n := by
  have hsize : m.shape.length = m.calls.size := by simp [Machine.shape]
  have htake (j : Nat) (hj : j ≤ m.shape.length) :
      latestIn (m.shape.take j).reverse n = m.calls.latestBelow n j := by
    induction j with
    | zero => rfl
    | succ j ih =>
      have hlt : j < m.calls.size := by omega
      rw [List.take_succ_eq_append_getElem hj, List.reverse_append, List.reverse_singleton, List.singleton_append,
        latestIn, Calls.latestBelow, Array.getElem?_eq_getElem hlt, ih (Nat.le_of_succ_le hj)]
      simp [Machine.shape, Nat.min_eq_left hlt.le]
  rw [Calls.latest?, ← hsize, ← htake _ le_rfl, List.take_length]

theorem declarer_eq {name : String} (h : scope ++ [name] ∈ ps) :
    declarer ps (ps.idxOf (scope ++ [name])) = owner ps scope := by
  have hget : ps[ps.idxOf (scope ++ [name])]? = some (scope ++ [name]) := by
    rw [List.getElem?_eq_getElem (List.idxOf_lt_length_of_mem h), List.getElem_idxOf]
  rw [declarer, hget, Option.bind_some, List.dropLast_concat]

/-- Every state with links has its activations stacked, and the procedure that runs goes on. -/
theorem Linked.stacked (hstart : Resumes J ps [] 0) (h : Linked J ps readValue m links) :
    ∃ path, Stacked J ps m.shape.reverse links path ∧ Resumes J ps path m.pc := by
  induction h with
  | initial => exact ⟨[], .outside, hstart⟩
  | @step m m' links e h he hm ih =>
    obtain ⟨path, hst, hpc⟩ := ih
    rcases hpc.first with ⟨step, line, hs, hfits, hnext⟩ | hend
    · obtain rfl := Option.some.inj (hs.symm.trans he)
      obtain ⟨hmoves, -⟩ := execute_moves hm
      cases step with
      | call n =>
        obtain ⟨q, hq, hentry, hshape⟩ := hmoves
        obtain ⟨home, outer, name, body, hhome, rfl, hstanding, hset⟩ := hfits
        obtain ⟨hmem, text, entry, hproc, hres⟩ := hstanding.resumes hset
        obtain rfl := Option.some.inj (hq.symm.trans hproc)
        refine ⟨home.path ++ [name], ?_, hentry ▸ hres⟩
        have hlink : m.relink ps links (.call (ps.idxOf (home.path ++ [name]))) =
            linkTo m.shape.reverse links (owner ps home.path) :: links := by
          simp only [Machine.relink, declarer_eq hmem, linkTo, procedureIn_shape]
        rw [hshape, List.reverse_append, List.reverse_singleton, List.singleton_append, hlink]
        exact .call hst (hnext _ (List.mem_singleton_self _)) hhome hmem
      | leave =>
        obtain ⟨a, hshape, hreturn⟩ := hmoves
        have hrev : m.shape.reverse = a :: m'.shape.reverse := by
          rw [show m.shape = m'.shape ++ [a] from hshape]
          simp
        rw [hrev] at hst
        cases hst with
        | call hbelow hr _ _ => exact ⟨_, hbelow, hreturn ▸ hr⟩
      | declare | const | load | store | push | oper | read | write | jump | jumpIfFalse | forTest | forStep =>
        obtain ⟨hmem, hshape⟩ := hmoves
        exact ⟨path, (show m'.shape = m.shape from hshape) ▸ hst, hnext _ hmem⟩
    · rw [hend, Array.getElem?_eq_none le_rfl] at he
      cases he

theorem Stacked.only_machine (hst : Stacked J ps m.shape.reverse links path) (hs : scope <+: path) {q : Nat}
    (hq : owner ps scope = some q) : ∃ k, m.calls.latest? q = some k ∧ m.OnlyOn links q k := by
  have hne : scope ≠ [] := fun hnil => by simp [owner, hnil] at hq
  rw [owner, if_neg hne] at hq
  cases hq
  obtain ⟨k, hk, hmem, honly⟩ := hst.only hst.chained hne hs
  have hproc := (latestIn_spec hk).2
  simp only [procedureIn_shape] at hproc honly
  exact ⟨k, latestIn_shape m _ ▸ hk, hmem, hproc, honly⟩

theorem Fits.owner_of_variable {step : Step} {v : VarRef} (h : Fits J ps path step) (hv : step.variable? = some v) :
    ∃ scope, scope <+: path ∧ v.owner = owner ps scope := by
  cases step with
  | declare | const | load | store | read | forTest | forStep =>
    cases hv
    exact h
  | push | oper | write | call | leave | jump | jumpIfFalse => cases hv

end Replay

namespace Program

open Replay

/-- In every state that a replay can reach, the variables of a procedure are looked up in its activation on
the static chain of the procedure that runs; and a procedure that is called finds the procedure that declares
it on the static chain of the caller. -/
theorem lookup_follows_static_links {source : String} {p : Program} {t : Table}
    (hp : Program.ofSource source = .ok p) (ht : p.analyze = .ok t) :
    ∃ J, JumpCode.ofCode p.code = .ok J ∧
      J.procedures.toList.map (·.name) = (procedurePaths p.declared).map dotted ∧
      ∀ readValue m, Reachable J readValue m →
        (∃ links, Linked J (procedurePaths p.declared) readValue m links) ∧
        ∀ links e, Linked J (procedurePaths p.declared) readValue m links → J.code[m.pc]? = some e →
          (∀ v q, e.step.variable? = some v → v.owner = some q →
            ∃ k, m.place? v.owner = some (.activation k) ∧ m.OnlyOn links q k) ∧
          ∀ n q, e.step = .call n → declarer (procedurePaths p.declared) n = some q → ∃ k, m.OnlyOn links q k := by
  have h := Program.scoped_of_source hp ht
  obtain ⟨J, hJ, hat, hnames⟩ := p.lowers_numbered h
  refine ⟨J, hJ, hnames, fun readValue m hm => ⟨hm.linked _, fun links e hl he => ?_⟩⟩
  obtain ⟨path, hst, hpc⟩ := hl.stacked (p.resumes h hat)
  rcases hpc.first with ⟨step, line, hs, hfits, -⟩ | hend
  · obtain rfl := Option.some.inj (hs.symm.trans he)
    refine ⟨fun v q hv hq => ?_, fun n q hn hq => ?_⟩
    · obtain ⟨scope, hscope, howner⟩ := hfits.owner_of_variable hv
      obtain ⟨k, hk, honly⟩ := hst.only_machine hscope (howner ▸ hq)
      exact ⟨k, by rw [hq, Machine.place?, hk, Option.map_some], honly⟩
    · obtain rfl : step = .call n := hn
      obtain ⟨home, outer, name, body, hhome, rfl, hstanding, hset⟩ := hfits
      obtain ⟨hmem, -⟩ := hstanding.resumes hset
      obtain ⟨k, -, honly⟩ := hst.only_machine hhome (declarer_eq hmem ▸ hq)
      exact ⟨k, honly⟩
  · rw [hend, Array.getElem?_eq_none le_rfl] at he
    cases he

/-- Two procedures that call each other, four calls deep: the inner one reads a variable of the outer one, of
which two activations are there. -/
theorem lookup_follows_static_links_recursive : ∃ p t J m links,
    Program.ofSource "procedure f; var x; begin procedure g; begin read x; f; end; g; end; f;" = .ok p ∧
      p.analyze = .ok t ∧ JumpCode.ofCode p.code = .ok J ∧ Reachable J 1 m ∧ m.calls.size = 4 ∧
      J.code[m.pc]? = some ⟨.read ⟨some 0, "x"⟩, some 1⟩ ∧ Linked J (procedurePaths p.declared) 1 m links ∧
      m.place? (some 0) = some (.activation 2) ∧ m.OnlyOn links 0 2 := by
  obtain ⟨p, t, J, m, probe, hp, ht, hJ, hrun, hsize, hread, hplace⟩ : ∃ p t J m probe,
      Program.ofSource "procedure f; var x; begin procedure g; begin read x; f; end; g; end; f;" = .ok p ∧
        p.analyze = .ok t ∧ JumpCode.ofCode p.code = .ok J ∧
        Machine.run J ⟨1, 100⟩ (·.depth == 4) = .ok (some probe, m) ∧ m.calls.size = 4 ∧
        J.code[m.pc]? = some ⟨.read ⟨some 0, "x"⟩, some 1⟩ ∧ m.place? (some 0) = some (.activation 2) :=
    ⟨_, _, _, _, _, rfl, rfl, rfl, rfl, rfl, rfl, rfl⟩
  obtain ⟨hm, -⟩ := Reachable.runFor_ok .initial hrun
  obtain ⟨J', hJ', -, hlinks⟩ := lookup_follows_static_links hp ht
  obtain rfl := Except.ok.inj (hJ.symm.trans hJ')
  obtain ⟨⟨links, hl⟩, hlookup⟩ := hlinks 1 m hm
  obtain ⟨k, hk, honly⟩ := (hlookup links _ hl hread).1 ⟨some 0, "x"⟩ 0 rfl rfl
  obtain rfl : k = 2 := Place.activation.inj (Option.some.inj (hk.symm.trans hplace))
  exact ⟨p, t, J, m, links, hp, ht, hJ, hm, hsize, hread, hl, hplace, honly⟩

end Program

end PLZero
