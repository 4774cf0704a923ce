import PLZero.Proofs.Placed
import PLZero.Proofs.Steps

/-! The replay machine tracks the meaning of a program: the variables of each scope in sight are those of
the latest activation of the scope's procedure. What is not in sight stays as it is. -/

namespace PLZero.Replay

open Meaning

namespace Calls

theorem latestBelow_congr {calls calls' : Calls} (procedure : Nat) (n : Nat)
    (h : ∀ i < n, calls'[i]?.map (·.procedure) = calls[i]?.map (·.procedure)) :
    calls'.latestBelow procedure n = calls.latestBelow procedure n := by
  induction n with
  | zero => rfl
  | succ n ih =>
    have hn := h n (Nat.lt_succ_self n)
    have ih := ih fun i hi => h i (Nat.lt_succ_of_lt hi)
    simp only [latestBelow]
    cases hc : calls[n]? <;> cases hc' : calls'[n]? <;> simp_all

theorem latestBelow_spec {calls : Calls} {procedure n i : Nat}
    (h : calls.latestBelow procedure n = some i) : i < n ∧ calls[i]?.map (·.procedure) = some procedure := by
  induction n with
  | zero => cases h
  | succ n ih =>
    simp only [latestBelow] at h
    split at h
    · next a ha =>
      split at h
      · next hp =>
        cases h
        exact ⟨Nat.lt_succ_self _, by simp [ha, hp]⟩
      · exact ⟨Nat.lt_succ_of_lt (ih h).1, (ih h).2⟩
    · exact ⟨Nat.lt_succ_of_lt (ih h).1, (ih h).2⟩

end Calls

namespace Machine

/-- Which procedures are active and where they return to. -/
def shape (m : Machine) : List (Nat × Nat) := m.calls.toList.map fun a => (a.procedure, a.returnTo)

variable {m m' : Machine} {o o' : Option Nat} {pl pl' : Place}

theorem size_of_shape (h : m'.shape = m.shape) : m'.calls.size = m.calls.size := by
  simpa [shape] using congrArg List.length h

theorem place?_congr (h : m'.shape = m.shape) (o : Option Nat) : m'.place? o = m.place? o := by
  cases o with
  | none => rfl
  | some n =>
    have hp : ∀ i : Nat, m'.calls[i]?.map (·.procedure) = m.calls[i]?.map (·.procedure) := by
      intro i
      have := congrArg (fun l : List (Nat × Nat) => l[i]?.map (·.1)) h
      simpa [shape, Function.comp_def] using this
    simp only [place?, Calls.latest?, size_of_shape h]
    rw [Calls.latestBelow_congr n _ fun i _ => hp i]

theorem place?_inj (h : m.place? o = some pl) (h' : m.place? o' = some pl) : o = o' := by
  cases o with
  | none =>
    cases o' with
    | none => rfl
    | some n' =>
      obtain ⟨i, -, rfl⟩ := Option.map_eq_some_iff.mp h'
      cases h
  | some n =>
    obtain ⟨i, hi, rfl⟩ := Option.map_eq_some_iff.mp h
    cases o' with
    | none => cases h'
    | some n' =>
      obtain ⟨i', hi', heq⟩ := Option.map_eq_some_iff.mp h'
      cases heq
      have := (Calls.latestBelow_spec hi).2.symm.trans (Calls.latestBelow_spec hi').2
      exact this

theorem shape_withStore (m : Machine) (pl : Place) (f : Store → Store) : (m.withStore pl f).shape = m.shape := by
  cases pl with
  | outside => rfl
  | activation i =>
    refine List.ext_getElem? fun x => ?_
    simp only [shape, withStore, List.getElem?_map, Array.getElem?_toList, Array.getElem?_modify]
    split
    · rw [Option.map_map]; rfl
    · rfl

theorem store_withStore (h : m.place? o = some pl) (f : Store → Store) (pl' : Place) :
    (m.withStore pl f).store pl' = if pl = pl' then f (m.store pl) else m.store pl' := by
  cases pl with
  | outside => cases pl' <;> rfl
  | activation i =>
    cases pl' with
    | outside => rfl
    | activation j =>
      cases o with
      | none => cases h
      | some n =>
        obtain ⟨i', hi, heq⟩ := Option.map_eq_some_iff.mp h
        cases heq
        have hlt := (Calls.latestBelow_spec hi).1
        simp only [withStore, store, Array.getElem?_modify, Place.activation.injEq]
        split
        · next hij =>
          subst hij
          rw [Array.getElem?_eq_getElem hlt]
          rfl
        · rfl

def entered (m : Machine) (procedure entry returnTo : Nat) : Machine :=
  { m with calls := m.calls.push ⟨procedure, ∅, returnTo⟩, pc := entry }

theorem shape_entered (m : Machine) (n entry r : Nat) : (m.entered n entry r).shape = m.shape ++ [(n, r)] := by
  simp [entered, shape]

theorem store_entered (m : Machine) (n entry r : Nat) (pl : Place) :
    (m.entered n entry r).store pl = m.store pl := by
  cases pl with
  | outside => rfl
  | activation i =>
    simp only [entered, store, Array.getElem?_push]
    split
    · next hi => simp [hi]
    · rfl

theorem place?_entered_self (m : Machine) (n entry r : Nat) :
    (m.entered n entry r).place? (some n) = some (.activation m.calls.size) := by
  simp [entered, place?, Calls.latest?, Calls.latestBelow]

theorem place?_entered {n : Nat} (ho : o ≠ some n) (m : Machine) (entry r : Nat) :
    (m.entered n entry r).place? o = m.place? o := by
  cases o with
  | none => rfl
  | some n' =>
    have hne : n ≠ n' := fun h => ho (h ▸ rfl)
    have hbelow : Calls.latestBelow (m.calls.push ⟨n, ∅, r⟩) n' m.calls.size =
        m.calls.latestBelow n' m.calls.size := by
      refine Calls.latestBelow_congr n' _ fun i hi => ?_
      rw [Array.getElem?_push, if_neg hi.ne]
    simp only [entered, place?, Calls.latest?, Array.size_push, Calls.latestBelow, Array.getElem?_push_size,
      if_neg hne, hbelow]

theorem store_congr (hg : m'.globals = m.globals)
    (h : ∀ i : Nat, pl = .activation i → m'.calls[i]? = m.calls[i]?) : m'.store pl = m.store pl := by
  cases pl with
  | outside => exact hg
  | activation i => simp only [store, h i rfl]

theorem place?_lt {i : Nat} (h : m.place? o = some (.activation i)) : i < m.calls.size := by
  cases o with
  | none => cases h
  | some n =>
    obtain ⟨j, hj, heq⟩ := Option.map_eq_some_iff.mp h
    cases heq
    exact (Calls.latestBelow_spec hj).1

theorem store_of_size_le {i : Nat} (h : m.calls.size ≤ i) : m.store (.activation i) = ∅ := by
  simp [store, Array.getElem?_eq_none h]

def left (m : Machine) (returnTo : Nat) : Machine := { m with calls := m.calls.pop, pc := returnTo }

theorem store_left {r : Nat} (h : pl ≠ .activation (m.calls.size - 1)) : (m.left r).store pl = m.store pl := by
  refine store_congr rfl fun i hi => ?_
  subst hi
  have hne : i ≠ m.calls.size - 1 := fun h' => h (h' ▸ rfl)
  simp only [left, Array.getElem?_pop]
  split
  · rfl
  · exact (Array.getElem?_eq_none (by omega)).symm

section

variable {n r : Nat} (h : m'.shape = m.shape ++ [(n, r)])

include h

theorem size_of_call : m'.calls.size = m.calls.size + 1 := by
  simpa [shape] using congrArg List.length h

theorem back_of_call : ∃ a, m'.calls.back? = some a ∧ a.returnTo = r := by
  have hback : m'.calls.back?.map (fun a => (a.procedure, a.returnTo)) = some (n, r) := by
    simpa [shape] using congrArg List.getLast? h
  obtain ⟨a, ha, har⟩ := Option.map_eq_some_iff.mp hback
  exact ⟨a, ha, congrArg Prod.snd har⟩

theorem shape_left (r' : Nat) : (m'.left r').shape = m.shape := by
  simpa [shape, left] using congrArg List.dropLast h

end

end Machine

open Machine

/-- The machine `m`, on the way from `m0`, has the values of `s` in the places of the owners `os`, and has
changed no other place. -/
structure Tracks (os : List (Option Nat)) (m0 : Machine) (s : State) (pc : Nat) (stack : List Int32)
    (m : Machine) : Prop where
  pc : m.pc = pc
  stack : m.stack = stack
  output : m.output = s.output
  nodup : os.Nodup
  length : s.frames.length = os.length
  holds : ∀ (d : Nat) (o : Option Nat) (fr : Meaning.Frame), os[d]? = some o → s.frames[d]? = some fr →
    ∃ pl, m.place? o = some pl ∧ ∀ name, (m.store pl).value name = fr[name]?
  shape : m.shape = m0.shape
  kept : ∀ pl, (∀ o ∈ os, m0.place? o ≠ some pl) → m.store pl = m0.store pl

namespace Tracks

variable {os : List (Option Nat)} {m0 m m' : Machine} {s : State} {i : Nat} {stack : List Int32}
  {d : Nat} {o : Option Nat}

theorem moved {i' : Nat} {stack' : List Int32} (h : Tracks os m0 s i stack m) (hpc : m'.pc = i')
    (hst : m'.stack = stack') (hc : m'.calls = m.calls) (hg : m'.globals = m.globals)
    (ho : m'.output = m.output) : Tracks os m0 s i' stack' m' where
  pc := hpc
  stack := hst
  output := ho.trans h.output
  nodup := h.nodup
  length := h.length
  holds d o fr hd hf := by
    obtain ⟨pl, hp, hv⟩ := h.holds d o fr hd hf
    refine ⟨pl, (place?_congr (by rw [Machine.shape, hc]; rfl) o).trans hp, fun name => ?_⟩
    rw [← hv name, store_congr hg fun i _ => by rw [hc]]
  shape := (show m'.shape = m.shape by rw [Machine.shape, hc]; rfl).trans h.shape
  kept pl hpl := (store_congr hg fun i _ => by rw [hc]).trans (h.kept pl hpl)

theorem place (h : Tracks os m0 s i stack m) (hd : os[d]? = some o) :
    ∃ pl fr, m.place? o = some pl ∧ s.frames[d]? = some fr ∧ ∀ name, (m.store pl).value name = fr[name]? := by
  have hlt : d < s.frames.length := h.length ▸ (List.getElem?_eq_some_iff.mp hd).1
  obtain ⟨pl, hp, hv⟩ := h.holds d o _ hd (List.getElem?_eq_getElem hlt)
  exact ⟨pl, _, hp, List.getElem?_eq_getElem hlt, hv⟩

/-- A change in the place of the owner at depth `d` that does the same to the frame there. -/
theorem update {pl : Place} {f : Store → Store} {g : Meaning.Frame → Meaning.Frame}
    (h : Tracks os m0 s i stack m) (hd : os[d]? = some o) (hpl : m.place? o = some pl)
    (hfg : ∀ (st : Store) (fr : Meaning.Frame), (∀ name, st.value name = fr[name]?) →
      ∀ name, (f st).value name = (g fr)[name]?) :
    Tracks os m0 { s with frames := s.frames.modify d g } i stack (m.withStore pl f) where
  pc := by cases pl <;> exact h.pc
  stack := by cases pl <;> exact h.stack
  output := by cases pl <;> exact h.output
  nodup := h.nodup
  length := (List.length_modify ..).trans h.length
  holds d' o' fr' hd' hf' := by
    have hshape := shape_withStore m pl f
    rw [List.getElem?_modify] at hf'
    obtain ⟨fr, hfr, rfl⟩ := Option.map_eq_some_iff.mp hf'
    by_cases heq : d = d'
    · subst heq
      obtain rfl : o = o' := Option.some.inj (hd.symm.trans hd')
      obtain ⟨pl', hp', hv⟩ := h.holds d o fr hd hfr
      obtain rfl : pl = pl' := Option.some.inj (hpl.symm.trans hp')
      refine ⟨pl, (place?_congr hshape o).trans hpl, ?_⟩
      simp only [store_withStore hpl, if_true]
      exact hfg _ _ hv
    · obtain ⟨pl', hp', hv⟩ := h.holds d' o' fr hd' hfr
      refine ⟨pl', (place?_congr hshape o').trans hp', ?_⟩
      have hne : pl ≠ pl' := by
        rintro rfl
        obtain rfl := place?_inj hpl hp'
        exact heq ((List.getElem?_inj (List.getElem?_eq_some_iff.mp hd).1 h.nodup).mp (hd.trans hd'.symm))
      simpa only [store_withStore hpl, if_neg hne, if_neg heq] using hv
  shape := (shape_withStore m pl f).trans h.shape
  kept pl' hpl' := by
    have hne : pl ≠ pl' := by
      rintro rfl
      exact hpl' o (List.mem_of_getElem? hd) ((place?_congr h.shape o).symm.trans hpl)
    rw [store_withStore hpl, if_neg hne]
    exact h.kept pl' hpl'

theorem count (h : Tracks os m0 s i stack m) (e : Exec) : Tracks os m0 s i stack (m.count e) :=
  h.moved h.pc h.stack rfl rfl rfl

theorem pop {v : Int32} (h : Tracks os m0 s i (v :: stack) m) (e : Exec) :
    ∃ m', m.pop e = .ok (v, m') ∧ Tracks os m0 s i stack m' := by
  refine ⟨{ m with stack }, ?_, h.moved h.pc rfl rfl rfl rfl⟩
  simp only [Machine.pop, h.stack]

theorem pushed {v : Int32} (h : Tracks os m0 s i stack m) : Tracks os m0 s (i + 1) (v :: stack) (m.push v).next :=
  h.moved (congrArg (· + 1) h.pc) (congrArg (v :: ·) h.stack) rfl rfl rfl

theorem next (h : Tracks os m0 s i stack m) : Tracks os m0 s (i + 1) stack m.next :=
  h.moved (congrArg (· + 1) h.pc) h.stack rfl rfl rfl

theorem goTo (h : Tracks os m0 s i stack m) (target : Nat) : Tracks os m0 s target stack (m.goTo target) :=
  h.moved rfl h.stack rfl rfl rfl

theorem fetch (h : Tracks os m0 s i stack m) (hd : os[d]? = some o) (name : String)
    (e : Exec) : ∃ m', m.fetch ⟨o, name⟩ e = .ok ((s.get d name).getD 0, m') ∧ Tracks os m0 s i stack m' := by
  obtain ⟨pl, fr, hpl, hfr, hv⟩ := h.place hd
  refine ⟨m.withStore pl (·.touch name), ?_, ?_⟩
  · simp only [Machine.fetch, hpl, hv, State.get, hfr, Option.bind_some]
  · have := h.update (f := (·.touch name)) (g := id) hd hpl fun st fr hst n => by rw [Store.value_touch, hst]; rfl
    rwa [List.modify_id] at this

theorem assign (h : Tracks os m0 s i stack m) (hd : os[d]? = some o) (name : String)
    (v : Int32) (e : Exec) :
    ∃ m', m.assign ⟨o, name⟩ (some v) e = .ok m' ∧ Tracks os m0 (s.set d name v) i stack m' := by
  obtain ⟨pl, fr, hpl, hfr, hv⟩ := h.place hd
  refine ⟨m.withStore pl (·.set name (some v)), by simp only [Machine.assign, hpl], ?_⟩
  refine h.update hd hpl fun st fr hst n => ?_
  rw [Store.value_set, Std.ExtTreeMap.getElem?_insert, hst]
  simp

theorem declare (h : Tracks os m0 s i stack m) (hd : os[0]? = some o) (name : String) (e : Exec) :
    ∃ m', m.assign ⟨o, name⟩ none e = .ok m' ∧ Tracks os m0 (s.clear name) i stack m' := by
  obtain ⟨pl, fr, hpl, hfr, hv⟩ := h.place hd
  refine ⟨m.withStore pl (·.set name none), by simp only [Machine.assign, hpl], ?_⟩
  refine h.update hd hpl fun st fr hst n => ?_
  rw [Store.value_set, Std.ExtTreeMap.getElem?_erase, hst]
  simp

section

variable (operate : BinOp → Int32 → Int32 → Option Int32) (readValue : Int32) {J : JumpCode}
  {line : Option Nat} {name : String} {v : Int32}

/-- A step that is neither operation nor call nor return. -/
theorem advances {step : Step} (h : Tracks os m0 s i stack m) (hs : J.StepAt i step line)
    (ho : Orderly operate m ⟨step, line⟩)
    (he : Machine.execute J readValue (m.count ⟨step, line⟩) ⟨step, line⟩ = .ok m') :
    Advances operate J readValue m m' :=
  ⟨⟨step, line⟩, h.pc ▸ hs, ho, he⟩

theorem step_push (h : Tracks os m0 s i stack m) (hs : J.StepAt i (.push v) line) :
    ∃ m', Advances operate J readValue m m' ∧ Tracks os m0 s (i + 1) (v :: stack) m' :=
  ⟨_, h.advances operate readValue hs trivial rfl, (h.count _).pushed⟩

theorem step_oper {op : BinOp} {l r : Int32} (h : Tracks os m0 s i (r :: l :: stack) m)
    (hs : J.StepAt i (.oper op) line) (hop : operate op l r = some v) (happ : op.apply l r = some v) :
    ∃ m', Advances operate J readValue m m' ∧ Tracks os m0 s (i + 1) (v :: stack) m' := by
  obtain ⟨m1, hp1, h1⟩ := (h.count ⟨.oper op, line⟩).pop ⟨.oper op, line⟩
  obtain ⟨m2, hp2, h2⟩ := h1.pop ⟨.oper op, line⟩
  refine ⟨(m2.push v).next, h.advances operate readValue hs ?_ ?_, h2.pushed⟩
  · intro right left rest hst
    rw [h.stack] at hst
    cases hst
    simp [hop]
  · simp only [Machine.execute, hp1, hp2, happ, bind, Except.bind]
    rfl

theorem step_load (h : Tracks os m0 s i stack m) (hs : J.StepAt i (.load ⟨o, name⟩) line) (hd : os[d]? = some o) :
    ∃ m', Advances operate J readValue m m' ∧ Tracks os m0 s (i + 1) ((s.get d name).getD 0 :: stack) m' := by
  obtain ⟨m1, hf, h1⟩ := (h.count ⟨.load ⟨o, name⟩, line⟩).fetch hd name ⟨.load ⟨o, name⟩, line⟩
  refine ⟨_, h.advances operate readValue hs trivial ?_, h1.pushed⟩
  simp only [Machine.execute, hf, bind, Except.bind]
  rfl

theorem step_store (h : Tracks os m0 s i (v :: stack) m) (hs : J.StepAt i (.store ⟨o, name⟩) line)
    (hd : os[d]? = some o) :
    ∃ m', Advances operate J readValue m m' ∧ Tracks os m0 (s.set d name v) (i + 1) stack m' := by
  obtain ⟨m1, hp, h1⟩ := (h.count ⟨.store ⟨o, name⟩, line⟩).pop ⟨.store ⟨o, name⟩, line⟩
  obtain ⟨m2, ha, h2⟩ := h1.assign hd name v ⟨.store ⟨o, name⟩, line⟩
  refine ⟨_, h.advances operate readValue hs trivial ?_, h2.next⟩
  simp only [Machine.execute, hp, ha, bind, Except.bind]
  rfl

theorem step_read (h : Tracks os m0 s i stack m) (hs : J.StepAt i (.read ⟨o, name⟩) line) (hd : os[d]? = some o) :
    ∃ m', Advances operate J readValue m m' ∧ Tracks os m0 (s.set d name readValue) (i + 1) stack m' := by
  obtain ⟨m1, ha, h1⟩ := (h.count ⟨.read ⟨o, name⟩, line⟩).assign hd name readValue ⟨.read ⟨o, name⟩, line⟩
  refine ⟨_, h.advances operate readValue hs trivial ?_, h1.next⟩
  simp only [Machine.execute, ha, bind, Except.bind]
  rfl

theorem step_const (h : Tracks os m0 s i stack m) (hs : J.StepAt i (.const ⟨o, name⟩ v) line)
    (hd : os[d]? = some o) :
    ∃ m', Advances operate J readValue m m' ∧ Tracks os m0 (s.set d name v) (i + 1) stack m' := by
  obtain ⟨m1, ha, h1⟩ := (h.count ⟨.const ⟨o, name⟩ v, line⟩).assign hd name v ⟨.const ⟨o, name⟩ v, line⟩
  refine ⟨_, h.advances operate readValue hs trivial ?_, h1.next⟩
  simp only [Machine.execute, ha, bind, Except.bind]
  rfl

theorem step_declare (h : Tracks os m0 s i stack m) (hs : J.StepAt i (.declare ⟨o, name⟩) line)
    (hd : os[0]? = some o) :
    ∃ m', Advances operate J readValue m m' ∧ Tracks os m0 (s.clear name) (i + 1) stack m' := by
  obtain ⟨m1, ha, h1⟩ := (h.count ⟨.declare ⟨o, name⟩, line⟩).declare hd name ⟨.declare ⟨o, name⟩, line⟩
  refine ⟨_, h.advances operate readValue hs trivial ?_, h1.next⟩
  simp only [Machine.execute, ha, bind, Except.bind]
  rfl

theorem step_write (h : Tracks os m0 s i (v :: stack) m) (hs : J.StepAt i .write line) :
    ∃ m', Advances operate J readValue m m' ∧ Tracks os m0 (s.write v) (i + 1) stack m' := by
  obtain ⟨m1, hp, h1⟩ := (h.count ⟨.write, line⟩).pop ⟨.write, line⟩
  have h2 : Tracks os m0 (s.write v) i stack { m1 with output := m1.output.push v } :=
    { h1 with output := congrArg (·.push v) h1.output, length := h1.length, holds := h1.holds }
  refine ⟨_, h.advances operate readValue hs trivial ?_, h2.next⟩
  simp only [Machine.execute, hp, bind, Except.bind]
  rfl

theorem step_jump {target : Nat} (h : Tracks os m0 s i stack m) (hs : J.StepAt i (.jump target) line) :
    ∃ m', Advances operate J readValue m m' ∧ Tracks os m0 s target stack m' :=
  ⟨_, h.advances operate readValue hs trivial rfl, (h.count _).goTo target⟩

theorem step_jumpIfFalse {target : Nat} (h : Tracks os m0 s i (v :: stack) m)
    (hs : J.StepAt i (.jumpIfFalse target) line) :
    ∃ m', Advances operate J readValue m m' ∧
      Tracks os m0 s (if v ≠ 0 then i + 1 else target) stack m' := by
  obtain ⟨m1, hp, h1⟩ := (h.count ⟨.jumpIfFalse target, line⟩).pop ⟨.jumpIfFalse target, line⟩
  refine ⟨if v = 0 then m1.goTo target else m1.next, h.advances operate readValue hs trivial ?_, ?_⟩
  · simp only [Machine.execute, hp, bind, Except.bind]
    rfl
  · by_cases hv : v = 0
    · simpa [hv] using h1.goTo target
    · simpa [hv] using h1.next

/-- The test of a counting loop; `v` is the bound. -/
theorem step_forTest {exit : Nat} (h : Tracks os m0 s i (v :: stack) m)
    (hs : J.StepAt i (.forTest ⟨o, name⟩ exit) line) (hd : os[d]? = some o) :
    ∃ m', Advances operate J readValue m m' ∧
      Tracks os m0 s (if (s.get d name).getD 0 < v then i + 1 else exit) stack m' := by
  obtain ⟨m1, hp, h1⟩ := (h.count ⟨.forTest ⟨o, name⟩ exit, line⟩).pop ⟨.forTest ⟨o, name⟩ exit, line⟩
  obtain ⟨m2, hf, h2⟩ := h1.fetch hd name ⟨.forTest ⟨o, name⟩ exit, line⟩
  refine ⟨if v ≤ (s.get d name).getD 0 then m2.goTo exit else m2.next,
    h.advances operate readValue hs trivial ?_, ?_⟩
  · simp only [Machine.execute, hp, hf, bind, Except.bind]
    rfl
  · by_cases hv : v ≤ (s.get d name).getD 0
    · simpa [hv, Int32.not_lt.mpr hv] using h2.goTo exit
    · simpa [hv, Int32.not_le.mp hv] using h2.next

theorem step_forStep {head : Nat} (h : Tracks os m0 s i stack m) (hs : J.StepAt i (.forStep ⟨o, name⟩ head) line)
    (hd : os[d]? = some o) :
    ∃ m', Advances operate J readValue m m' ∧
      Tracks os m0 (s.set d name ((s.get d name).getD 0 + 1)) head stack m' := by
  obtain ⟨m1, hf, h1⟩ := (h.count ⟨.forStep ⟨o, name⟩ head, line⟩).fetch hd name ⟨.forStep ⟨o, name⟩ head, line⟩
  obtain ⟨m2, ha, h2⟩ := h1.assign hd name ((s.get d name).getD 0 + 1) ⟨.forStep ⟨o, name⟩ head, line⟩
  refine ⟨_, h.advances operate readValue hs trivial ?_, h2.goTo head⟩
  simp only [Machine.execute, hf, ha, bind, Except.bind]
  rfl

/-- Entering a procedure that sees the owners from depth `d` on. -/
theorem step_call {n entry : Nat} {text : String} (h : Tracks os m0 s i [] m) (hs : J.StepAt i (.call n) line)
    (he : J.procedures[n]? = some ⟨text, entry⟩) (hn : (some n :: os.drop d).Nodup) :
    Advances operate J readValue m ((m.count ⟨.call n, line⟩).entered n entry (i + 1)) ∧
      Tracks (some n :: os.drop d) ((m.count ⟨.call n, line⟩).entered n entry (i + 1)) (s.enter d) entry []
        ((m.count ⟨.call n, line⟩).entered n entry (i + 1)) := by
  have hc := h.count ⟨.call n, line⟩
  refine ⟨h.advances operate readValue hs h.stack ?_, ⟨rfl, hc.stack, hc.output, hn, ?_, ?_, rfl, fun _ _ => rfl⟩⟩
  · simp only [Machine.execute, he, entered, ← hc.pc]
  · simp [State.enter, h.length]
  · intro d' o' fr hd' hf'
    cases d' with
    | zero =>
      cases hd'
      cases hf'
      refine ⟨_, place?_entered_self .., fun name => ?_⟩
      rw [store_entered, store_of_size_le le_rfl]
      rfl
    | succ d' =>
      simp only [State.enter, List.getElem?_cons_succ, List.getElem?_drop] at hd' hf'
      obtain ⟨pl, hpl, hv⟩ := hc.holds _ o' fr hd' hf'
      have hne : o' ≠ some n := by
        rintro rfl
        refine (List.nodup_cons.mp hn).1 (List.mem_of_getElem? (i := d') ?_)
        rw [List.getElem?_drop, hd']
      exact ⟨pl, (place?_entered hne ..).trans hpl, fun name => by rw [store_entered, hv]⟩

section

variable {n entry r k : Nat} {s2 : State} {m2 : Machine} {pl : Place}
  (h2 : Tracks (some n :: os) (m.entered n entry r) s2 k [] m2)

include h2

theorem place?_callee (ho : o ∈ os) : (m.entered n entry r).place? o = m.place? o :=
  place?_entered (fun heq => (List.nodup_cons.mp h2.nodup).1 (heq ▸ ho)) ..

theorem store_callee (hpl : pl ≠ .activation m.calls.size) (r' : Nat) : (m2.left r').store pl = m2.store pl := by
  refine store_left ?_
  rwa [size_of_call (h2.shape.trans (shape_entered ..)), Nat.add_sub_cancel]

/-- Places that the procedure does not see are as they were at the call. -/
theorem store_unseen (hpl : ∀ o ∈ os, m.place? o ≠ some pl) (r' : Nat) : (m2.left r').store pl = m.store pl := by
  by_cases hnew : ∃ j, pl = .activation j ∧ m.calls.size ≤ j
  · obtain ⟨j, rfl, hj⟩ := hnew
    have hsize := size_of_shape (shape_left (h2.shape.trans (shape_entered ..)) r')
    rw [store_of_size_le hj, store_of_size_le (hsize ▸ hj)]
  · have hne : pl ≠ .activation m.calls.size := fun heq => hnew ⟨_, heq, le_rfl⟩
    rw [h2.store_callee hne, h2.kept pl ?_, store_entered]
    rw [List.forall_mem_cons, place?_entered_self]
    refine ⟨fun heq => hne (Option.some.inj heq).symm, fun o ho => ?_⟩
    rw [h2.place?_callee ho]
    exact hpl o ho

end

/-- Leaving the procedure again: what the caller sees from depth `d` on is as the procedure left it, the
rest is as it was at the call. -/
theorem step_leave {n entry k : Nat} {s2 : State} {m2 : Machine} (h : Tracks os m0 s i [] m) (hd : d ≤ os.length)
    (h2 : Tracks (some n :: os.drop d) (m.entered n entry (i + 1)) s2 k [] m2) (hs : J.StepAt k .leave line) :
    ∃ m3, Advances operate J readValue m2 m3 ∧ Tracks os m0 (s2.leave s d) (i + 1) [] m3 := by
  have hc := h2.count ⟨.leave, line⟩
  have hshape := shape_left (hc.shape.trans (shape_entered ..)) (i + 1)
  obtain ⟨a, ha, hreturn⟩ := back_of_call (hc.shape.trans (shape_entered ..))
  refine ⟨(m2.count ⟨.leave, line⟩).left (i + 1), h2.advances operate readValue hs h2.stack ?_,
    ⟨rfl, h2.stack, h2.output, h.nodup, ?_, fun d' o fr ho hf => ?_, hshape.trans h.shape, fun pl hpl => ?_⟩⟩
  · simp only [Machine.execute, ha, hreturn]
    rfl
  · have := h2.length
    simp [State.leave, h.length, this]
    omega
  · rw [place?_congr hshape]
    have htake : (s.frames.take d).length = d := by rw [List.length_take, h.length]; omega
    rcases Nat.lt_or_ge d' d with hlt | hge
    · -- a scope nearer than that of the procedure, which has not seen it
      rw [State.leave, List.getElem?_append_left (by omega), List.getElem?_take, if_pos hlt] at hf
      obtain ⟨pl, hpl, hv⟩ := h.holds d' o fr ho hf
      refine ⟨pl, hpl, fun name => ?_⟩
      rw [hc.store_unseen ?_, hv]
      intro o' ho' hpl'
      obtain rfl := place?_inj hpl hpl'
      obtain ⟨j, hj⟩ := List.mem_iff_getElem?.mp ho'
      rw [List.getElem?_drop] at hj
      have := (List.getElem?_inj (List.getElem?_eq_some_iff.mp ho).1 h.nodup).mp (ho.trans hj.symm)
      omega
    · rw [State.leave, List.getElem?_append_right (by omega), htake, List.getElem?_tail] at hf
      have hdrop : (some n :: os.drop d)[d' - d + 1]? = some o := by
        rw [List.getElem?_cons_succ, List.getElem?_drop, Nat.add_sub_cancel' hge, ho]
      obtain ⟨pl, hpl, hv⟩ := hc.holds _ o fr hdrop hf
      rw [place?_congr hc.shape, hc.place?_callee (List.mem_of_getElem? hdrop)] at hpl
      refine ⟨pl, hpl, fun name => ?_⟩
      rw [hc.store_callee ?_, hv]
      rintro rfl
      exact absurd (place?_lt hpl) (lt_irrefl _)
  · refine (hc.store_unseen (fun o ho => ?_) _).trans (h.kept pl hpl)
    rw [place?_congr h.shape]
    exact hpl o (List.mem_of_mem_drop ho)

end

end Tracks

end PLZero.Replay
