import Mathlib.Data.List.Infix
import Mathlib.Logic.Function.Basic

/-! Activations of procedures. Code refers to variables of the activation it runs in and of those around it, which are
found along static links. Procedures are called by name only, so what is in sight of an activation is, of every
procedure around it, the most recent activation. What stands outside of all procedures has one activation, which lasts
for the whole run. -/

namespace PLZero

structure Activation where
  /-- The procedure, behind those around it; empty outside of all procedures. -/
  path : List String
  /-- The activation of a procedure that names of this one refer to, by its number. -/
  refersTo : List String → Option Nat

/-- The activations that are not over, and the values of their variables. -/
structure History where
  /-- The latest one first; they are numbered from the oldest one. -/
  active : List Activation
  values : Nat → String → Int32

namespace Activation

def nth? : List Activation → Nat → Option Activation
  | [], _ => none
  | a :: rest, i => if i = rest.length then some a else nth? rest i

/-- The most recent activation of a procedure. -/
def latest : List Activation → List String → Option Nat
  | [], _ => none
  | a :: rest, path => if a.path = path then some rest.length else latest rest path

end Activation

open Activation

namespace History

def initial : History := ⟨[⟨[], fun q => if q = [] then some 0 else none⟩], fun _ _ => 0⟩

def inSight (h : History) (path : List String) : Option Nat := h.active.head?.bind (·.refersTo path)

/-- A call. The new activation is linked to the one, in sight of the caller, that its procedure is declared in. -/
def enter (h : History) (path : List String) : History where
  active :=
    ⟨path, fun q =>
      if q = path then some h.active.length
      else ((h.inSight path.dropLast).bind (nth? h.active)).bind (·.refersTo q)⟩ :: h.active
  values := Function.update h.values h.active.length fun _ => 0

def assign (h : History) (path : List String) (name : String) (v : Int32) : History :=
  match h.inSight path with
  | some i => { h with values := Function.update h.values i (Function.update (h.values i) name v) }
  | none => h

def leave (h : History) : History := { h with active := h.active.tail }

/-- The value in the most recent activation of a procedure, zero if there is none. -/
def value (h : History) (path : List String) (name : String) : Int32 :=
  match latest h.active path with
  | some i => h.values i name
  | none => 0

end History

namespace Activation

variable {a b : Activation} {rest all : List Activation} {path path' : List String} {i : Nat}

theorem latest_self (h : a.path = path) : latest (a :: rest) path = some rest.length := if_pos h

theorem latest_of_ne (h : a.path ≠ path) : latest (a :: rest) path = latest rest path := if_neg h

theorem nth?_self : nth? (a :: rest) rest.length = some a := if_pos rfl

theorem nth?_of_lt (h : i < rest.length) : nth? (a :: rest) i = nth? rest i := if_neg (Nat.ne_of_lt h)

theorem latest_lt (h : latest all path = some i) : i < all.length := by
  induction all with
  | nil => cases h
  | cons a rest ih =>
    by_cases ha : a.path = path
    · rw [latest_self ha] at h
      cases h
      exact Nat.lt_succ_self _
    · rw [latest_of_ne ha] at h
      exact Nat.lt_succ_of_lt (ih h)

theorem nth?_latest (h : latest all path = some i) : ∃ a, nth? all i = some a ∧ a.path = path := by
  induction all with
  | nil => cases h
  | cons a rest ih =>
    by_cases ha : a.path = path
    · rw [latest_self ha] at h
      cases h
      exact ⟨a, nth?_self, ha⟩
    · rw [latest_of_ne ha] at h
      rw [nth?_of_lt (latest_lt h)]
      exact ih h

theorem latest_inj (h : latest all path = some i) (h' : latest all path' = some i) : path = path' := by
  obtain ⟨a, ha, rfl⟩ := nth?_latest h
  obtain ⟨a', ha', rfl⟩ := nth?_latest h'
  cases ha.symm.trans ha'
  rfl

end Activation

namespace History

variable {h h' : History} {path home q : List String} {name m : String} {v : Int32}

/-- Code of this procedure runs: of the procedure and of each around it the most recent activation is in sight, and
this one sees the same. -/
def RunsIn (h : History) (path : List String) : Prop :=
  ∀ q, q <+: path → ∃ i b, h.inSight q = some i ∧ latest h.active q = some i ∧ nth? h.active i = some b ∧
    ∀ r, r <+: q → b.refersTo r = h.inSight r

theorem runsIn_initial : initial.RunsIn [] := by
  intro q hq
  obtain rfl := List.prefix_nil.mp hq
  refine ⟨0, _, rfl, rfl, rfl, fun r hr => ?_⟩
  rfl

theorem RunsIn.enter (hr : h.RunsIn path) (hhome : home <+: path) :
    (h.enter (home ++ [name])).RunsIn (home ++ [name]) := by
  have hshort {r : List String} (hr : r <+: home) : r ≠ home ++ [name] := by
    rintro rfl
    have hlen := hr.length_le
    rw [List.length_append, List.length_singleton] at hlen
    omega
  -- the activation that the new one is linked to sees what the caller sees
  have hlinked {r : List String} (hr' : r <+: home) : (h.enter (home ++ [name])).inSight r = h.inSight r := by
    obtain ⟨i, b, hi, -, hb, hsees⟩ := hr home hhome
    simp only [inSight, History.enter, List.head?_cons, Option.bind_some, if_neg (hshort hr'), List.dropLast_concat]
    rw [show h.active.head?.bind (·.refersTo home) = some i from hi, Option.bind_some, hb, Option.bind_some]
    exact hsees r hr'
  intro q hq
  rcases List.prefix_concat_iff.mp hq with rfl | hq
  · exact ⟨h.active.length, _, if_pos rfl, latest_self rfl, nth?_self, fun _ _ => rfl⟩
  · obtain ⟨i, b, hi, hlatest, hb, hsees⟩ := hr q (hq.trans hhome)
    refine ⟨i, b, (hlinked hq).trans hi, ?_, ?_, fun r hr' => ?_⟩
    · exact (latest_of_ne (hshort hq).symm).trans hlatest
    · exact (nth?_of_lt (latest_lt hlatest)).trans hb
    · exact (hsees r hr').trans (hlinked (hr'.trans hq)).symm

theorem value_eq {i : Nat} (hi : latest h.active path = some i) : h.value path name = h.values i name := by
  simp only [value, hi]

theorem value_none (hi : latest h.active path = none) : h.value path name = 0 := by simp only [value, hi]

theorem value_initial (path : List String) (name : String) : initial.value path name = 0 := by
  unfold value
  split <;> rfl

/-- Variables of a new activation are zero. -/
theorem value_enter : (h.enter path).value q m = if q = path then 0 else h.value q m := by
  split
  · next heq =>
    rw [value_eq (latest_self heq.symm)]
    simp only [enter, Function.update_self]
  · next hne =>
    have hlatest : latest (h.enter path).active q = latest h.active q := latest_of_ne (Ne.symm hne)
    cases hi : latest h.active q with
    | none => rw [value_none (hlatest.trans hi), value_none hi]
    | some i =>
      rw [value_eq (hlatest.trans hi), value_eq hi]
      simp only [enter, Function.update_of_ne (Nat.ne_of_lt (latest_lt hi))]

/-- What is in sight is what is most recent. -/
theorem RunsIn.assign_eq (hr : h.RunsIn path) (hhome : home <+: path) (name : String) (v : Int32) :
    ∃ i, latest h.active home = some i ∧ h.assign home name v =
      { h with values := Function.update h.values i (Function.update (h.values i) name v) } := by
  obtain ⟨i, b, hi, hlatest, -⟩ := hr home hhome
  refine ⟨i, hlatest, ?_⟩
  simp only [assign, hi]

theorem RunsIn.value_assign (hr : h.RunsIn path) (hhome : home <+: path) :
    (h.assign home name v).value q m = if q = home ∧ m = name then v else h.value q m := by
  obtain ⟨i, hlatest, hassign⟩ := hr.assign_eq hhome name v
  rw [hassign]
  cases hj : latest h.active q with
  | none =>
    have hq : q ≠ home := by
      rintro rfl
      cases hj.symm.trans hlatest
    simp only [value, hj]
    rw [if_neg fun heq => hq heq.1]
  | some j =>
    simp only [value, hj]
    by_cases hij : j = i
    · rw [hij] at hj ⊢
      rw [latest_inj hj hlatest, Function.update_self, Function.update_apply]
      simp
    · have hq : q ≠ home := by
        rintro rfl
        exact hij (Option.some.inj (hj.symm.trans hlatest))
      rw [Function.update_of_ne hij, if_neg fun heq => hq heq.1]

/-- The same activations are left, and only the most recent activation of a procedure may have other values. -/
structure Evolves (h h' : History) : Prop where
  active : h'.active = h.active
  values : ∀ i < h.active.length, (∀ path, latest h.active path ≠ some i) → h'.values i = h.values i

namespace Evolves

theorem refl (h : History) : Evolves h h := ⟨rfl, fun _ _ _ => rfl⟩

theorem trans {h'' : History} (h1 : Evolves h h') (h2 : Evolves h' h'') : Evolves h h'' := by
  refine ⟨h2.active.trans h1.active, fun i hi hold => ?_⟩
  rw [h2.values i (h1.active ▸ hi) (h1.active ▸ hold), h1.values i hi hold]

theorem assign (hr : h.RunsIn path) (hhome : home <+: path) : Evolves h (h.assign home name v) := by
  obtain ⟨i, hlatest, hassign⟩ := hr.assign_eq hhome name v
  rw [hassign]
  refine ⟨rfl, fun j _ hold => ?_⟩
  have hij : j ≠ i := by
    rintro rfl
    exact hold home hlatest
  exact Function.update_of_ne hij _ _

theorem runsIn (he : Evolves h h') (hr : h.RunsIn path) : h'.RunsIn path := by
  unfold RunsIn inSight at hr ⊢
  rw [he.active]
  exact hr

variable (hbody : Evolves (h.enter path) h')

include hbody

/-- An activation that is not the most recent one of its procedure during a call is as it was before. -/
theorem values_of_call {i : Nat} (hi : i < h.active.length) (hold : ∀ q, q ≠ path → latest h.active q ≠ some i) :
    h'.values i = h.values i := by
  refine (hbody.values i (Nat.lt_succ_of_lt hi) fun q => ?_).trans (Function.update_of_ne (Nat.ne_of_lt hi) _ _)
  by_cases hq : path = q
  · intro hlatest
    cases (latest_self hq).symm.trans hlatest
    exact Nat.lt_irrefl _ hi
  · intro hlatest
    exact hold q (Ne.symm hq) ((latest_of_ne hq).symm.trans hlatest)

theorem active_leave : h'.leave.active = h.active := by
  rw [History.leave, hbody.active]
  rfl

theorem leave : Evolves h h'.leave :=
  ⟨hbody.active_leave, fun _ hi hold => hbody.values_of_call hi fun q _ => hold q⟩

/-- Behind a call the variables of its procedure are as before it. -/
theorem value_leave : h'.leave.value q m = if q = path then h.value q m else h'.value q m := by
  have hlatest : latest h'.leave.active q = latest h.active q := by rw [hbody.active_leave]
  split
  · next heq =>
    cases hi : latest h.active q with
    | none => rw [value_none (hlatest.trans hi), value_none hi]
    | some i =>
      rw [value_eq (hlatest.trans hi), value_eq hi]
      -- the call has hidden the activation before it
      refine congrFun (hbody.values_of_call (latest_lt hi) fun q' hne hi' => hne ?_) m
      rw [latest_inj hi' hi, heq]
  · next hne =>
    have hduring : latest h'.active q = latest h.active q := by
      rw [hbody.active]
      exact latest_of_ne (Ne.symm hne)
    cases hi : latest h.active q with
    | none => rw [value_none (hlatest.trans hi), value_none (hduring.trans hi)]
    | some i =>
      rw [value_eq (hlatest.trans hi), value_eq (hduring.trans hi)]
      rfl

end Evolves

end History

end PLZero
