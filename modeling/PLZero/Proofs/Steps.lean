import PLZero.Proofs.Meaning
import PLZero.Replay.Machine
import Mathlib.Order.Nat

/-! Runs of the replay machine, counted in steps, against the meaning of programs: where the meaning is a
result the machine gets to a state that has it, where it is a fault the machine gets to the operation at
fault, and where it was cut off the machine has taken as many steps as the cut allows. -/

namespace PLZero.Replay

open Meaning

/-- The step `e` comes where it should: operations have a result, and nothing is left on the evaluation
stack when a procedure is entered or left. -/
def Orderly (operate : BinOp → Int32 → Int32 → Option Int32) (m : Machine) (e : Exec) : Prop :=
  match e.step with
  | .oper op => ∀ right left rest, m.stack = right :: left :: rest → operate op left right ≠ none
  | .call _ | .leave => m.stack = []
  | _ => True

section

variable (operate : BinOp → Int32 → Int32 → Option Int32) (J : JumpCode) (readValue : Int32)

def Advances (m m' : Machine) : Prop :=
  ∃ e, J.code[m.pc]? = some e ∧ Orderly operate m e ∧ Machine.execute J readValue (m.count e) e = .ok m'

inductive Steps : Nat → Machine → Machine → Prop
  | refl (m : Machine) : Steps 0 m m
  | cons {n : Nat} {m m' m'' : Machine} (h : Advances operate J readValue m m') (hs : Steps n m' m'') :
    Steps (n + 1) m m''

/-- The machine is about to operate on values that have no result. -/
def Faults (line : Nat) (m : Machine) : Prop :=
  ∃ op right left rest, J.code[m.pc]? = some ⟨.oper op, some line⟩ ∧
    m.stack = right :: left :: rest ∧ operate op left right = none

/-- From `m` the machine does what `o` says, and where that is a result `Q` holds. -/
def Meets {α : Type} (bound : Nat) (o : Result α) (m : Machine) (Q : α → Machine → Prop) : Prop :=
  match o with
  | .done a => ∃ n m', Steps operate J readValue n m m' ∧ Q a m'
  | .fault (.division line) => ∃ n m', Steps operate J readValue n m m' ∧ Faults operate J line m'
  | .fault (.undeclared _) => False
  | .exhausted => ∃ n m', bound ≤ n ∧ Steps operate J readValue n m m'

end

variable {operate : BinOp → Int32 → Int32 → Option Int32} {J : JumpCode} {readValue : Int32}
  {m m' m'' : Machine}

theorem Steps.trans {n n' : Nat} (h : Steps operate J readValue n m m')
    (h' : Steps operate J readValue n' m' m'') : Steps operate J readValue (n + n') m m'' := by
  induction h with
  | refl => rwa [Nat.zero_add]
  | @cons n _ _ _ ha _ ih =>
    rw [Nat.add_right_comm]
    exact .cons ha (ih h')

namespace Meets

variable {α β : Type} {bound : Nat} {o : Result α} {Q R : α → Machine → Prop}

theorem done {a : α} (h : Q a m) : Meets operate J readValue bound (.done a) m Q := ⟨0, m, .refl m, h⟩

theorem imp (h : Meets operate J readValue bound o m Q) (hQR : ∀ a m', Q a m' → R a m') :
    Meets operate J readValue bound o m R := by
  match o with
  | .done a =>
    obtain ⟨n, m', hs, hq⟩ := h
    exact ⟨n, m', hs, hQR a m' hq⟩
  | .fault (.division line) => exact h
  | .fault (.undeclared name) => exact h
  | .exhausted => exact h

theorem weaken {bound' : Nat} (h : Meets operate J readValue bound o m Q) (hb : bound' ≤ bound) :
    Meets operate J readValue bound' o m Q := by
  match o with
  | .done a => exact h
  | .fault (.division line) => exact h
  | .fault (.undeclared name) => exact h
  | .exhausted =>
    obtain ⟨n, m', hn, hs⟩ := h
    exact ⟨n, m', hb.trans hn, hs⟩

theorem step_succ (ha : Advances operate J readValue m m') (h : Meets operate J readValue bound o m' Q) :
    Meets operate J readValue (bound + 1) o m Q := by
  match o with
  | .done a =>
    obtain ⟨n, m'', hs, hq⟩ := h
    exact ⟨n + 1, m'', .cons ha hs, hq⟩
  | .fault (.division line) =>
    obtain ⟨n, m'', hs, hf⟩ := h
    exact ⟨n + 1, m'', .cons ha hs, hf⟩
  | .fault (.undeclared name) => exact h
  | .exhausted =>
    obtain ⟨n, m'', hn, hs⟩ := h
    exact ⟨n + 1, m'', Nat.succ_le_succ hn, .cons ha hs⟩

theorem step (ha : Advances operate J readValue m m') (h : Meets operate J readValue bound o m' Q) :
    Meets operate J readValue bound o m Q :=
  (h.step_succ ha).weaken (Nat.le_succ bound)

theorem steps {n : Nat} (hs : Steps operate J readValue n m m') (h : Meets operate J readValue bound o m' Q) :
    Meets operate J readValue bound o m Q := by
  induction hs with
  | refl => exact h
  | cons ha _ ih => exact (ih h).step ha

theorem bind {k : α → Result β} {R : β → Machine → Prop} (h : Meets operate J readValue bound o m Q)
    (hk : ∀ a m', Q a m' → Meets operate J readValue bound (k a) m' R) :
    Meets operate J readValue bound (o >>= k) m R := by
  match o with
  | .done a =>
    obtain ⟨n, m', hs, hq⟩ := h
    exact (hk a m' hq).steps hs
  | .fault (.division line) => exact h
  | .fault (.undeclared name) => exact h
  | .exhausted => exact h

/-- A loop: `I` holds before every test, each round takes a step at least, and `Q` holds behind it. -/
theorem loop {test : State → Result Bool} {body : State → Result State} {I : State → Machine → Prop}
    {T : Bool → State → Machine → Prop} {Q : State → Machine → Prop}
    (htest : ∀ s m, I s m → Meets operate J readValue bound (test s) m (fun b m' => T b s m'))
    (hbody : ∀ s m, T true s m → ∃ m', Advances operate J readValue m m' ∧
      Meets operate J readValue bound (body s) m' I)
    (hexit : ∀ s m, T false s m → ∃ m', Advances operate J readValue m m' ∧ Q s m')
    (n : Nat) {s : State} (h : I s m) :
    Meets operate J readValue (min n bound) (Meaning.loop test body n s) m Q := by
  induction n generalizing s m with
  | zero => exact ⟨0, m, Nat.min_le_left 0 bound, .refl m⟩
  | succ n ih =>
    refine ((htest s m h).weaken (Nat.min_le_right _ _)).bind fun b m' hT => ?_
    cases b with
    | true =>
      obtain ⟨m'', ha, hb⟩ := hbody s m' hT
      refine (step_succ ha ((hb.weaken (Nat.min_le_right n _)).bind fun s' m3 hI => ih hI)).weaken ?_
      omega
    | false =>
      obtain ⟨m'', ha, hQ⟩ := hexit s m' hT
      exact step ha (done hQ)

theorem andSteps (h : Meets operate J readValue bound o m Q)
    (hsteps : ∀ a m', Q a m' → ∃ n m'', Steps operate J readValue n m' m'' ∧ R a m'') :
    Meets operate J readValue bound o m R := by
  match o with
  | .done a =>
    obtain ⟨n, m', hs, hq⟩ := h
    obtain ⟨n', m'', hs', hr⟩ := hsteps a m' hq
    exact ⟨n + n', m'', hs.trans hs', hr⟩
  | .fault (.division line) => exact h
  | .fault (.undeclared name) => exact h
  | .exhausted => exact h

theorem andStep (h : Meets operate J readValue bound o m Q)
    (hstep : ∀ a m', Q a m' → ∃ m'', Advances operate J readValue m' m'' ∧ R a m'') :
    Meets operate J readValue bound o m R :=
  h.andSteps fun a m' hq => (hstep a m' hq).elim fun m'' ⟨ha, hr⟩ => ⟨1, m'', .cons ha (.refl m''), hr⟩

end Meets

end PLZero.Replay
