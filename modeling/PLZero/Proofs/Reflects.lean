import PLZero.Proofs.Emitted
import PLZero.Proofs.Meaning
import PLZero.Proofs.ModuleRun

/-! Globals of a stack module against the frames of the meaning. For the scopes in sight each variable has its
value in the global with its full name; a call saves and clears the globals of the procedure it enters, and
all other globals that it can see are those of scopes around the procedure. -/

namespace PLZero.StackModule

variable {name : String} {f : Found}

/-- The scopes `ks` have all the variables and constants of the scopes in `layers`, and maybe later ones. -/
abbrev Covers (layers ks : List Layer) : Prop :=
  List.Forall₂ (fun l k => k.path = l.path ∧ ∀ e ∈ l.entries, e.isProcedure = false → e ∈ k.entries) layers ks

/-- The scopes are one inside the other, and what they declare is in the catalogue. -/
structure Levels (D : List Declared) (ks : List Layer) : Prop where
  nested : ks.Pairwise fun k k' => k'.path.length < k.path.length
  known : ∀ k ∈ ks, ∀ e ∈ k.entries, e.isProcedure = false → (k.path, e) ∈ D

/-- The values of a scope: its variables are in globals, its constants are set, and nothing else is. -/
structure Held (D : List Declared) (t : State) (k : Layer) (fr : Meaning.Frame) : Prop where
  vars : ∀ n, (k.path, .var n) ∈ D → t.get (qualify k.path n) = fr[n]?.getD 0
  consts : ∀ n v, .const n v ∈ k.entries → fr[n]? = some v
  fresh : ∀ n, ¬ k.declares n → fr[n]? = none

/-- The module is in a state that shows the state `s` of the meaning in the scopes `ks`; globals that are no
variables of these scopes, and all locals, are as in `t0`. -/
structure Reflects (D : List Declared) (ks : List Layer) (t0 : State) (s : Meaning.State) (t : State) : Prop where
  length : s.frames.length = ks.length
  held : ∀ {i : Nat} {k fr}, ks[i]? = some k → s.frames[i]? = some fr → Held D t k fr
  output : t.output = s.output
  constants : ∀ {path n v}, (path, .const n v) ∈ D → t.get (qualify path n) = v
  kept : ∀ id, (∀ k ∈ ks, ∀ n, (k.path, .var n) ∈ D → id ≠ qualify k.path n) → t.get id = t0.get id
  locals : t.locals = t0.locals

variable {D : List Declared} {layers ks : List Layer} {t t0 t1 t2 : State} {s : Meaning.State} {k : Layer}
  {i : Nat}

theorem Covers.path {l : Layer} (h : Covers (l :: layers) (k :: ks)) : k.path = l.path :=
  (List.forall₂_cons.mp h).1.1

theorem Covers.lookup (h : Covers layers ks) (hf : lookup layers name = some f) :
    ∃ k, ks[f.depth]? = some k ∧ k.path = f.home.path ∧ (f.entry.isProcedure = false → f.entry ∈ k.entries) ∧
      Covers (f.home :: f.outer) (ks.drop f.depth) := by
  obtain ⟨-, l, hdrop, hpath, hs, rest, hrest⟩ := lookup_home hf
  have hcov := List.forall₂_drop f.depth h
  rw [hdrop] at hcov
  match hk : ks.drop f.depth, hcov with
  | k :: ks', .cons ⟨hkp, hke⟩ hcov =>
    have hget : ks[f.depth]? = some k := by
      have := congrArg (·[0]?) hk
      simpa using this
    refine ⟨k, hget, hkp.trans hpath.symm, hke _ (hs.subset (hrest ▸ List.mem_cons_self)), .cons ?_ hcov⟩
    exact ⟨hkp.trans hpath.symm, fun e he => hke e (hs.subset he)⟩

theorem idOf_of_lookup (hf : lookup layers name = some f) :
    idOf layers name = qualify f.home.path name := by
  rw [idOf, hf, Option.elim_some]

theorem Levels.path_ne (h : Levels D ks) {j : Nat} {k' : Layer} (hi : ks[i]? = some k) (hj : ks[j]? = some k')
    (hne : i ≠ j) : k'.path ≠ k.path := by
  intro heq
  obtain ⟨hi', rfl⟩ := List.getElem?_eq_some_iff.mp hi
  obtain ⟨hj', rfl⟩ := List.getElem?_eq_some_iff.mp hj
  have hpair := List.pairwise_iff_getElem.mp h.nested
  rcases Nat.lt_or_gt_of_ne hne with hlt | hlt
  · have := hpair i j hi' hj' hlt
    rw [heq] at this
    exact lt_irrefl _ this
  · have := hpair j i hj' hi' hlt
    rw [heq] at this
    exact lt_irrefl _ this

section

variable (hD : Catalogue D) {path : List String} {n' : String}

include hD

theorem qualify_ne_of_path {path' : List String} {n : String} (h : (path, .var n) ∈ D)
    (h' : (path', .var n') ∈ D) (hne : path ≠ path') : qualify path n ≠ qualify path' n' :=
  fun heq => hne (congrArg Prod.fst (hD.distinct _ h _ h' heq))

theorem qualify_ne_of_name {n : String} (h : (path, .var n) ∈ D)
    (h' : (path, .var n') ∈ D) (hne : n ≠ n') : qualify path n ≠ qualify path n' :=
  fun heq => hne (by cases hD.distinct _ h _ h' heq; rfl)

theorem qualify_ne_const {path' : List String} {n : String} {v : Int32} (h : (path, .const n v) ∈ D)
    (h' : (path', .var n') ∈ D) : qualify path n ≠ qualify path' n' :=
  fun heq => by cases hD.distinct _ h _ h' heq

theorem ne_of_const {n : String} {v : Int32} (h : (path, .const n v) ∈ D)
    (h' : (path, .var n') ∈ D) : n ≠ n' :=
  fun heq => qualify_ne_const hD h h' (heq ▸ rfl)

end

theorem Reflects.frame (h : Reflects D ks t0 s t) (hk : ks[i]? = some k) : ∃ fr, s.frames[i]? = some fr := by
  have hlt := (List.getElem?_eq_some_iff.mp hk).1
  exact ⟨_, List.getElem?_eq_getElem (h.length ▸ hlt)⟩

theorem Reflects.read (h : Reflects D ks t0 s t) (hl : Levels D ks)
    (hcov : Covers layers ks) (hf : lookup layers name = some f) (hb : f.entry.isProcedure = false) :
    t.get (idOf layers name) = (s.get f.depth name).getD 0 := by
  obtain ⟨k, hk, hpath, hmem, -⟩ := hcov.lookup hf
  obtain ⟨fr, hfr⟩ := h.frame hk
  have hheld := h.held hk hfr
  have hD := hl.known k (List.mem_of_getElem? hk) _ (hmem hb) hb
  have hname := (lookup_home hf).1
  rw [idOf_of_lookup hf, ← hpath, Meaning.State.get, hfr, Option.bind_some]
  match he : f.entry with
  | .var n =>
    obtain rfl : n = name := by rw [← hname, he]; rfl
    exact hheld.vars n (he ▸ hD)
  | .const n v =>
    obtain rfl : n = name := by rw [← hname, he]; rfl
    rw [he] at hD hmem
    rw [h.constants hD, hheld.consts n v (hmem rfl)]
    rfl
  | .procedure n body => rw [he] at hb; cases hb

/-- One scope gets new values, and maybe a new declaration; only its own variables are set. -/
theorem Reflects.update (hD : Catalogue D) {k' : Layer} {t' : State} {g : Meaning.Frame → Meaning.Frame}
    (h : Reflects D ks t0 s t) (hl : Levels D ks) (hk : ks[i]? = some k) (hpath : k'.path = k.path)
    (hsame : ∀ id, (∀ n, (k.path, .var n) ∈ D → id ≠ qualify k.path n) → t'.get id = t.get id)
    (hout : t'.output = t.output) (hlocals : t'.locals = t.locals)
    (hheld : ∀ fr, s.frames[i]? = some fr → Held D t' k' (g fr)) :
    Reflects D (ks.set i k') t0 { s with frames := s.frames.modify i g } t' where
  length := by simp [h.length]
  held {j kj fr} hkj hfr := by
    by_cases hij : i = j
    · subst hij
      rw [List.getElem?_set_self (List.getElem?_eq_some_iff.mp hk).1] at hkj
      obtain rfl := Option.some.inj hkj
      rw [List.getElem?_modify_eq] at hfr
      obtain ⟨fr', hfr', rfl⟩ := Option.map_eq_some_iff.mp hfr
      exact hheld fr' hfr'
    · rw [List.getElem?_set_ne hij] at hkj
      rw [List.getElem?_modify_ne g _ hij] at hfr
      have hj := h.held hkj hfr
      refine ⟨fun n hn => ?_, hj.consts, hj.fresh⟩
      rw [hsame _ fun n' hn' => qualify_ne_of_path hD hn hn' (hl.path_ne hk hkj hij)]
      exact hj.vars n hn
  output := hout.trans h.output
  constants {path n v} hn := by
    rw [hsame _ fun n' hn' => qualify_ne_const hD hn hn']
    exact h.constants hn
  kept id hid := by
    have hid' : ∀ kj ∈ ks, ∀ n, (kj.path, .var n) ∈ D → id ≠ qualify kj.path n := by
      intro kj hkj n hn
      obtain ⟨j, hj⟩ := List.mem_iff_getElem?.mp hkj
      by_cases hij : i = j
      · subst hij
        obtain rfl := Option.some.inj (hk.symm.trans hj)
        rw [← hpath] at hn ⊢
        exact hid k' (List.mem_of_getElem? (List.getElem?_set_self (List.getElem?_eq_some_iff.mp hk).1)) n hn
      · exact hid kj (List.mem_of_getElem? ((List.getElem?_set_ne hij).trans hj)) n hn
    rw [hsame id fun n hn => hid' k (List.mem_of_getElem? hk) n hn]
    exact h.kept id hid'
  locals := hlocals.trans h.locals

theorem Held.set (hD : Catalogue D) {fr : Meaning.Frame} (h : Held D t k fr)
    (hlev : ∀ e ∈ k.entries, e.isProcedure = false → (k.path, e) ∈ D) (hmem : .var name ∈ k.entries) (v : Int32) :
    Held D (t.set (qualify k.path name) v) k (fr.insert name v) := by
  have hname := hlev _ hmem rfl
  refine ⟨fun n hn => ?_, fun n w hn => ?_, fun n hn => ?_⟩
  · rw [State.get_set, Meaning.Frame.getElem?_insert]
    by_cases heq : name = n
    · rw [if_pos heq, if_pos (heq ▸ rfl)]
      rfl
    · rw [if_neg heq, if_neg (qualify_ne_of_name hD hname hn heq)]
      exact h.vars n hn
  · rw [Meaning.Frame.getElem?_insert, if_neg (ne_of_const hD (hlev _ hn rfl) hname).symm]
    exact h.consts n w hn
  · have hne : name ≠ n := fun heq => hn (heq ▸ List.mem_map_of_mem (f := ScopeEntry.name) hmem)
    rw [Meaning.Frame.getElem?_insert, if_neg hne]
    exact h.fresh n hn

theorem get_set_of_ne {id : String} {n : String} (h : ∀ n, (k.path, .var n) ∈ D → id ≠ qualify k.path n)
    (hn : (k.path, .var n) ∈ D) (v : Int32) : (t.set (qualify k.path n) v).get id = t.get id := by
  rw [State.get_set, if_neg (h n hn).symm]

theorem Reflects.assign (hD : Catalogue D) (h : Reflects D ks t0 s t)
    (hl : Levels D ks) (hcov : Covers layers ks) (hf : lookup layers name = some f) (he : f.entry = .var name)
    (v : Int32) : Reflects D ks t0 (s.set f.depth name v) (t.set (idOf layers name) v) := by
  obtain ⟨k, hk, hpath, hmem, -⟩ := hcov.lookup hf
  rw [he] at hmem
  have hknown := hl.known k (List.mem_of_getElem? hk)
  have hset : ks.set f.depth k = ks := by
    obtain ⟨hlt, rfl⟩ := List.getElem?_eq_some_iff.mp hk
    exact List.set_getElem_self hlt
  rw [idOf_of_lookup hf, ← hpath]
  have := h.update hD (g := (·.insert name v)) hl hk rfl
    (fun id hid => get_set_of_ne (t := t) hid (hknown _ (hmem rfl) rfl) v) rfl rfl
    fun fr hfr => (h.held hk hfr).set hD hknown (hmem rfl) v
  rwa [hset] at this

theorem Levels.add {e : ScopeEntry} (h : Levels D (k :: ks)) (he : (k.path, e) ∈ D) :
    Levels D (k.add e :: ks) where
  nested := by
    obtain ⟨hk, hks⟩ := List.pairwise_cons.mp h.nested
    exact List.pairwise_cons.mpr ⟨hk, hks⟩
  known := by
    obtain ⟨hk, hks⟩ := List.forall_mem_cons.mp h.known
    refine List.forall_mem_cons.mpr ⟨List.forall_mem_cons.mpr ⟨fun _ => he, hk⟩, hks⟩

theorem Reflects.declare (h : Reflects D (k :: ks) t0 s t) (hnew : ¬ k.declares name) :
    s.clear name = s ∧ Reflects D (k.add (.var name) :: ks) t0 s t := by
  obtain ⟨fr, hfr⟩ := h.frame (i := 0) rfl
  have hheld := h.held rfl hfr
  constructor
  · have herase : fr.erase name = fr := by
      refine Std.ExtTreeMap.ext_getElem? fun n => ?_
      rw [Meaning.Frame.getElem?_erase]
      split
      · next heq => rw [← heq, hheld.fresh name hnew]
      · rfl
    obtain ⟨frames, output⟩ := s
    match frames, hfr with
    | fr' :: frames, hfr =>
      obtain rfl := Option.some.inj hfr
      simp only [Meaning.State.clear, List.modify_zero_cons, herase]
  · refine ⟨h.length, fun {i k' fr'} hk' hfr' => ?_, h.output, h.constants, fun id hid => h.kept id ?_,
      h.locals⟩
    · match i with
      | 0 =>
        obtain rfl := Option.some.inj hk'
        obtain rfl := Option.some.inj (hfr.symm.trans hfr')
        refine ⟨hheld.vars, fun n v hn => hheld.consts n v ?_, fun n hn => hheld.fresh n fun hn' => hn ?_⟩
        · exact (List.mem_cons.mp hn).resolve_left (by simp)
        · exact Layer.declares_add.mpr (.inr hn')
      | i + 1 => exact h.held (i := i + 1) hk' hfr'
    · exact List.forall_mem_cons.mpr (List.forall_mem_cons.mp hid)

theorem Reflects.declareConst (hD : Catalogue D) {v : Int32} (h : Reflects D (k :: ks) t0 s t)
    (hl : Levels D (k :: ks)) (hnew : ¬ k.declares name) (hmem : (k.path, .const name v) ∈ D) :
    Reflects D (k.add (.const name v) :: ks) t0 (s.set 0 name v) t := by
  refine h.update hD (i := 0) hl rfl rfl (fun _ _ => rfl) rfl rfl fun fr hfr => ?_
  have hheld := h.held rfl hfr
  refine ⟨fun n hn => ?_, fun n w hn => ?_, fun n hn => ?_⟩
  · rw [Meaning.Frame.getElem?_insert, if_neg (ne_of_const hD hmem hn)]
    exact hheld.vars n hn
  · rw [Meaning.Frame.getElem?_insert]
    rcases List.mem_cons.mp hn with heq | hn
    · cases heq
      exact if_pos rfl
    · have hne : name ≠ n := fun heq => hnew (heq ▸ List.mem_map_of_mem (f := ScopeEntry.name) hn)
      rw [if_neg hne]
      exact hheld.consts n w hn
  · have hne : name ≠ n := fun heq => hn (Layer.declares_add.mpr (.inl heq.symm))
    rw [Meaning.Frame.getElem?_insert, if_neg hne]
    exact hheld.fresh n fun hn' => hn (Layer.declares_add.mpr (.inr hn'))

section

variable {path saved : List String} {d : Nat}
  (hsaved : ∀ id, id ∈ saved ↔ ∃ n, (path, .var n) ∈ D ∧ id = qualify path n)

include hsaved

/-- The variables of scopes other than that of the function are not saved. -/
theorem not_mem_saved (hD : Catalogue D) {n : String} (hn : (k.path, .var n) ∈ D) (hne : k.path ≠ path) :
    qualify k.path n ∉ saved := by
  intro hmem
  obtain ⟨n', hn', heq⟩ := (hsaved _).mp hmem
  exact qualify_ne_of_path hD hn hn' hne heq

theorem const_not_mem_saved (hD : Catalogue D) {path' : List String} {n : String} {v : Int32}
    (hn : (path', .const n v) ∈ D) : qualify path' n ∉ saved := by
  intro hmem
  obtain ⟨n', hn', heq⟩ := (hsaved _).mp hmem
  exact qualify_ne_const hD hn hn' heq

/-- A function starts with the scopes around its procedure and a new one in which nothing is set. -/
theorem Reflects.enter (hD : Catalogue D) (h : Reflects D ks t0 s t) (hpath : ∀ k ∈ ks.drop d, k.path ≠ path) :
    Reflects D (⟨path, []⟩ :: ks.drop d) (cleared saved t) (s.enter d) (cleared saved t) where
  length := by simp [Meaning.State.enter, h.length]
  held {i k fr} hk hfr := by
    match i with
    | 0 =>
      obtain rfl := Option.some.inj hk
      obtain rfl := Option.some.inj hfr
      refine ⟨fun n hn => ?_, fun n v hn => (by cases hn), fun n _ => Std.ExtTreeMap.getElem?_empty⟩
      rw [cleared_get, if_pos ((hsaved _).mpr ⟨n, hn, rfl⟩), Std.ExtTreeMap.getElem?_empty]
      rfl
    | i + 1 =>
      have hk' : (ks.drop d)[i]? = some k := hk
      have hne := hpath k (List.mem_of_getElem? hk')
      rw [List.getElem?_drop] at hk'
      have hfr' : (s.frames.drop d)[i]? = some fr := hfr
      rw [List.getElem?_drop] at hfr'
      have hheld := h.held hk' hfr'
      refine ⟨fun n hn => ?_, hheld.consts, hheld.fresh⟩
      rw [cleared_get, if_neg (not_mem_saved hsaved hD hn hne)]
      exact hheld.vars n hn
  output := cleared_output.trans h.output
  constants hn := by
    rw [cleared_get, if_neg (const_not_mem_saved hsaved hD hn)]
    exact h.constants hn
  kept _ _ := rfl
  locals := rfl

/-- Behind a call the globals of the function are as before it, and the scopes in sight of both as the
function left them. -/
theorem Reflects.leave (hD : Catalogue D) {s2 : Meaning.State} {k2 : Layer} (h : Reflects D ks t0 s t)
    (hl : Levels D ks) (hd : d ≤ ks.length) (hpath : ∀ k ∈ ks.drop d, k.path ≠ path) (hk2 : k2.path = path)
    (h2 : Reflects D (k2 :: ks.drop d) (cleared saved t) s2 t2) :
    Reflects D ks t0 (s2.leave s d) (restored saved t t2) := by
  -- a global that neither the function nor the scopes around it own is as before the call
  have hkept : ∀ id, (∀ k ∈ ks.drop d, ∀ n, (k.path, .var n) ∈ D → id ≠ qualify k.path n) →
      (restored saved t t2).get id = t.get id := by
    intro id hid
    rw [restored_get h2.locals]
    split
    · rfl
    · next hmem =>
      rw [h2.kept id (List.forall_mem_cons.mpr ⟨fun n hn heq => hmem ?_, hid⟩), cleared_get, if_neg hmem]
      exact (hsaved id).mpr ⟨n, hk2 ▸ hn, hk2 ▸ heq⟩
  have hlen : s2.frames.tail.length = ks.length - d := by simp [h2.length]
  have htake : (s.frames.take d).length = d := by simp [h.length, hd]
  refine ⟨?_, fun {i k fr} hk hfr => ?_, ?_, fun {path' n v} hn => ?_, fun id hid => ?_, h.locals⟩
  · simp only [Meaning.State.leave, List.length_append, htake, hlen]
    omega
  · simp only [Meaning.State.leave] at hfr
    by_cases hi : i < d
    · rw [List.getElem?_append_left (by omega), List.getElem?_take_of_lt hi] at hfr
      have hheld := h.held hk hfr
      refine ⟨fun n hn => (hkept _ fun k' hk' n' hn' => ?_).trans (hheld.vars n hn), hheld.consts, hheld.fresh⟩
      obtain ⟨j, hj⟩ := List.mem_iff_getElem?.mp hk'
      rw [List.getElem?_drop] at hj
      exact qualify_ne_of_path hD hn hn' (hl.path_ne hj hk (by omega))
    · rw [List.getElem?_append_right (by omega), htake] at hfr
      have hk' : (k2 :: ks.drop d)[i - d + 1]? = some k := by
        rw [List.getElem?_cons_succ, List.getElem?_drop, Nat.add_sub_cancel' (by omega)]
        exact hk
      have hheld := h2.held hk' (List.getElem?_tail ▸ hfr)
      have hne := hpath k (List.mem_of_getElem? (List.getElem?_cons_succ ▸ hk'))
      refine ⟨fun n hn => ?_, hheld.consts, hheld.fresh⟩
      rw [restored_get h2.locals, if_neg (not_mem_saved hsaved hD hn hne)]
      exact hheld.vars n hn
  · exact restored_output.trans h2.output
  · rw [restored_get h2.locals, if_neg (const_not_mem_saved hsaved hD hn)]
    exact h2.constants hn
  · rw [hkept id fun k hk => hid k (List.mem_of_mem_drop hk)]
    exact h.kept id hid

end

end PLZero.StackModule
