import PLZero.Proofs.Scoped
import Mathlib.Data.List.Nodup

/-! Analysis in place. One pair of table and stack is changed step by step: a procedure is entered into the current
table and its place there is kept; the table waits on the stack while the body fills a table of its own, and comes back
behind the body, also if the body fails; then the table of the body is stored at the place that was kept. The pass gives
what the analysis gives. It leaves the tables on the stack as they are, only adds entries to the current one, and finds
at every place it kept the procedure that was entered there. -/

namespace PLZero

structure Tables where
  current : Table
  /-- The tables of the scopes around, the innermost first. -/
  enclosing : List Table

/-- Why a pass stops. -/
inductive Halt
  | names (e : ScopeError)
  | outOfRange (place : Nat)
  /-- At the place stands something else than the procedure that it was kept for. -/
  | mismatch (place : Nat)

/-- A part of the analysis that changes tables; there are tables behind it also where it stops. -/
def Pass (α : Type) : Type := Tables → Except Halt α × Tables

namespace Pass

variable {α β : Type}

/-- Goes on where the first part has succeeded. -/
def andThen (p : Pass α) (f : α → Pass β) : Pass β := fun a =>
  match p a with
  | (.ok x, b) => f x b
  | (.error e, b) => (.error e, b)

instance : Monad Pass where
  pure x := fun a => (.ok x, a)
  bind := andThen

/-- Looks at the tables, the innermost first. -/
def look (f : List Table → Except ScopeError α) : Pass α := fun a =>
  match f (a.current :: a.enclosing) with
  | .ok x => (.ok x, a)
  | .error e => (.error (.names e), a)

/-- Enters a symbol into the current table and gives its place there. -/
def declare (s : Symbol) : Pass Nat := fun a =>
  match a.current.declare s with
  | .ok t => (.ok (t.length - 1), { a with current := t })
  | .error e => (.error (.names e), a)

/-- Puts the current table on the stack and starts a new one. -/
def openScope : Pass Unit := fun a => (.ok (), ⟨[], a.current :: a.enclosing⟩)

/-- Takes back the table from the stack and gives the one that it replaces. -/
def closeScope : Pass Table := fun a => (.ok a.current, ⟨a.enclosing.headD [], a.enclosing.tail⟩)

/-- Goes on also where the part stops, with what it gave. -/
def attempt (p : Pass α) : Pass (Except Halt α) := fun a => (.ok (p a).1, (p a).2)

/-- A part in a scope of its own: what it gave, and the table of the scope. -/
def inScope (p : Pass α) : Pass (Except Halt α × Table) := do
  openScope
  let result ← attempt p
  let locals ← closeScope
  return (result, locals)

def give (r : Except Halt α) : Pass α := fun a => (r, a)

/-- Stores the table of a body with the procedure at a place, which has none yet. -/
def store (place : Nat) (name : String) (line : Nat) (body : Table) : Pass Unit := fun a =>
  match a.current[place]? with
  | some (.procedure n [] l) =>
    if n = name ∧ l = line then (.ok (), { a with current := a.current.set place (.procedure n body l) })
    else (.error (.mismatch place), a)
  | some _ => (.error (.mismatch place), a)
  | none => (.error (.outOfRange place), a)

end Pass

open Pass (look declare inScope give store)

def Decl.updateAll : List Decl → Pass Unit
  | [] => return ()
  | d :: rest => do
    let s ← look d.symbol
    let _ ← declare s
    updateAll rest

mutual

def Stmt.update : Stmt → Pass Unit
  | .assign name value line => do
    look (Table.assignable · name line)
    look value.analyze
  | .ifElse cond body elseIfs otherwise _ => do
    look cond.analyze
    Stmt.updateAll body
    ElseIf.updateAll elseIfs
    match otherwise with
    | some body => Stmt.updateAll body
    | none => return ()
  | .whileDo cond body _ => do
    look cond.analyze
    Stmt.updateAll body
  | .forTo counter start bound body line => do
    look (Table.assignable · counter line)
    look start.analyze
    look bound.analyze
    Stmt.updateAll body
  | .read names line => look fun scopes => names.forM (Table.assignable scopes · line)
  | .write values _ => look fun scopes => values.forM (·.analyze scopes)
  | .call name line => look (Table.callable · name line)
  | .group body _ => Stmt.updateAll body
  | .procedure name body line => do
    let place ← declare (.procedure name [] line)
    let inner ← inScope body.update
    give inner.1
    store place name line inner.2

def Stmt.updateAll : List Stmt → Pass Unit
  | [] => return ()
  | s :: rest => do
    s.update
    Stmt.updateAll rest

def ElseIf.updateAll : List ElseIf → Pass Unit
  | [] => return ()
  | ⟨cond, body, _⟩ :: rest => do
    look cond.analyze
    Stmt.updateAll body
    ElseIf.updateAll rest

def Block.update : Block → Pass Unit
  | ⟨decls, stmt, _⟩ => do
    Decl.updateAll decls
    match stmt with
    | some s => s.update
    | none => return ()

end

def Block.updateAll : List Block → Pass Unit
  | [] => return ()
  | b :: rest => do
    b.update
    updateAll rest

/-- The table that a pass over a whole program leaves. -/
def Program.update (p : Program) : Except Halt Table :=
  let r := Block.updateAll p.blocks ⟨[], []⟩
  r.1.map fun _ => r.2.current

namespace Symbol

mutual

/-- The tables of the bodies of a procedure and of all procedures in it. -/
def bodies : Symbol → List Table
  | .procedure _ body _ => body :: bodiesAll body
  | .var .. | .const .. => []

def bodiesAll : List Symbol → List Table
  | [] => []
  | s :: rest => s.bodies ++ bodiesAll rest

end

theorem bodiesAll_append (t t' : Table) : bodiesAll (t ++ t') = bodiesAll t ++ bodiesAll t' := by
  induction t with
  | nil => rfl
  | cons s t ih => rw [List.cons_append, bodiesAll, bodiesAll, ih, List.append_assoc]

end Symbol

namespace Table

def NodupNames (t : Table) : Prop := (t.map Symbol.name).Nodup

/-- From `t` to `t'` entries were only added, and no name twice in a scope. -/
structure ExtendsNodup (t t' : Table) : Prop where
  added : ∃ new, t' = t ++ new ∧ ∀ body ∈ Symbol.bodiesAll new, NodupNames body
  nodup : t.NodupNames → t'.NodupNames

namespace ExtendsNodup

variable {t t' t'' : Table}

theorem refl (t : Table) : ExtendsNodup t t := ⟨⟨[], by simp, by simp [Symbol.bodiesAll]⟩, id⟩

theorem trans (h : ExtendsNodup t t') (h' : ExtendsNodup t' t'') : ExtendsNodup t t'' := by
  obtain ⟨new, rfl, hbodies⟩ := h.added
  obtain ⟨new', rfl, hbodies'⟩ := h'.added
  refine ⟨⟨new ++ new', List.append_assoc .., ?_⟩, fun ht => h'.nodup (h.nodup ht)⟩
  rw [Symbol.bodiesAll_append]
  exact List.forall_mem_append.mpr ⟨hbodies, hbodies'⟩

theorem push {s : Symbol} (hn : t.find? s.name = none) (hs : ∀ body ∈ s.bodies, NodupNames body) :
    ExtendsNodup t (t ++ [s]) where
  added := ⟨[s], rfl, by simpa [Symbol.bodiesAll] using hs⟩
  nodup ht := by
    have hnew : s.name ∉ t.map Symbol.name := by
      intro hmem
      obtain ⟨x, hx, hname⟩ := List.mem_map.mp hmem
      exact List.find?_eq_none.mp hn x hx (beq_iff_eq.mpr hname)
    rw [NodupNames, List.map_append, List.map_singleton]
    exact List.nodup_append.mpr ⟨ht, List.nodup_singleton _, fun x hx y hy heq =>
      hnew (List.mem_singleton.mp hy ▸ heq ▸ hx)⟩

theorem nodup_bodies (h : ExtendsNodup [] t) : ∀ body ∈ t :: Symbol.bodiesAll t, NodupNames body := by
  refine List.forall_mem_cons.mpr ⟨h.nodup List.nodup_nil, ?_⟩
  obtain ⟨new, rfl, hbodies⟩ := h.added
  exact hbodies

end ExtendsNodup

end Table

theorem Decl.bodies_symbol {outer : List Table} {d : Decl} {s : Symbol} (h : d.symbol outer = .ok s) :
    s.bodies = [] := by
  cases d with
  | var name init line | const name init line =>
    cases init with
    | none => cases h; rfl
    | some i =>
      obtain ⟨v, -, h⟩ := ok_of_bind h
      cases h
      rfl

open Table (ExtendsNodup)

namespace Pass

section

variable {α β : Type} {p : Pass α} {f : α → Pass β} {a b : Tables} {s : Symbol}

theorem bind_of_ok {x : α} (h : p a = (.ok x, b)) : (p >>= f) a = f x b := by
  change andThen p f a = f x b
  rw [andThen, h]

theorem bind_of_error {e : Halt} (h : p a = (.error e, b)) : (p >>= f) a = (.error e, b) := by
  change andThen p f a = (.error e, b)
  rw [andThen, h]

theorem look_of_ok {f : List Table → Except ScopeError α} {x : α} (h : f (a.current :: a.enclosing) = .ok x) :
    look f a = (.ok x, a) := by
  rw [look, h]

theorem look_of_error {f : List Table → Except ScopeError α} {e : ScopeError}
    (h : f (a.current :: a.enclosing) = .error e) : look f a = (.error (.names e), a) := by
  rw [look, h]

/-- The place of a new symbol is the one behind all others. -/
theorem declare_of_ok {t : Table} (h : a.current.declare s = .ok t) :
    declare s a = (.ok a.current.length, ⟨a.current ++ [s], a.enclosing⟩) := by
  rw [declare, h]
  obtain ⟨-, rfl⟩ := Table.declare_ok h
  simp

theorem declare_of_error {e : ScopeError} (h : a.current.declare s = .error e) :
    declare s a = (.error (.names e), a) := by
  rw [declare, h]

theorem declared_at_place {place : Nat} (h : declare s a = (.ok place, b)) :
    b.current[place]? = some s := by
  cases hd : a.current.declare s with
  | error e =>
    rw [declare_of_error hd] at h
    cases h
  | ok t =>
    rw [declare_of_ok hd] at h
    cases h
    simp

theorem store_last (t : Table) (name : String) (line : Nat) (body : Table) (enclosing : List Table) :
    store t.length name line body ⟨t ++ [.procedure name [] line], enclosing⟩ =
      (.ok (), ⟨t ++ [.procedure name body line], enclosing⟩) := by
  simp [store]

/-- Whatever a part does to the current table, behind a scope of its own all tables are as they were before it. -/
theorem inScope_eq (h : (p ⟨[], a.current :: a.enclosing⟩).2.enclosing = a.current :: a.enclosing) :
    inScope p a =
      (.ok ((p ⟨[], a.current :: a.enclosing⟩).1, (p ⟨[], a.current :: a.enclosing⟩).2.current), a) := by
  have hclose : closeScope (p ⟨[], a.current :: a.enclosing⟩).2 =
      (.ok (p ⟨[], a.current :: a.enclosing⟩).2.current, a) := by
    rw [closeScope, h]
    rfl
  have hopen : openScope a = (.ok (), ⟨[], a.current :: a.enclosing⟩) := rfl
  have hattempt : attempt p ⟨[], a.current :: a.enclosing⟩ =
      (.ok (p ⟨[], a.current :: a.enclosing⟩).1, (p ⟨[], a.current :: a.enclosing⟩).2) := rfl
  rw [inScope, bind_of_ok hopen, bind_of_ok hattempt, bind_of_ok hclose]
  rfl

end

/-- What a pass makes of tables, where `m` is what the analysis gives: the same, and also where it stops the stack is as
before and the current table has only grown. -/
structure Gives (p : Pass Unit) (a : Tables) (m : Except ScopeError Table) : Prop where
  enclosing : (p a).2.enclosing = a.enclosing
  current : ExtendsNodup a.current (p a).2.current
  ok : ∀ t, m = .ok t → p a = (.ok (), ⟨t, a.enclosing⟩)
  error : ∀ e, m = .error e → (p a).1 = .error (.names e)

namespace Gives

variable {α : Type} {p q : Pass Unit} {a : Tables} {m : Except ScopeError Table}

theorem of_ok {t : Table} (h : p a = (.ok (), ⟨t, a.enclosing⟩)) (ht : ExtendsNodup a.current t) : Gives p a (.ok t) where
  enclosing := by rw [h]
  current := by rwa [h]
  ok t' ht' := by cases ht'; exact h
  error e he := by cases he

theorem of_error {e : ScopeError} {b : Tables} (h : p a = (.error (.names e), b))
    (hb : b.enclosing = a.enclosing) (ht : ExtendsNodup a.current b.current) : Gives p a (.error e) where
  enclosing := by rw [h, hb]
  current := by rwa [h]
  ok t ht := by cases ht
  error e' he := by cases he; rw [h]

theorem done : Gives (pure ()) a (.ok a.current) := .of_ok rfl (.refl _)

theorem later {t : Table} (hrun : p a = q ⟨t, a.enclosing⟩) (ht : ExtendsNodup a.current t)
    (h : Gives q ⟨t, a.enclosing⟩ m) : Gives p a m where
  enclosing := by rw [hrun, h.enclosing]
  current := by
    rw [hrun]
    exact ht.trans h.current
  ok t' ht' := by rw [hrun, h.ok t' ht']
  error e he := by rw [hrun, h.error e he]

theorem andThen {g : Table → Except ScopeError Table} (hp : Gives p a m)
    (hq : ∀ t, Gives q ⟨t, a.enclosing⟩ (g t)) : Gives (p >>= fun _ => q) a (m >>= g) := by
  cases m with
  | error e =>
    have hstop : p a = (.error (.names e), (p a).2) := Prod.ext (hp.error e rfl) rfl
    exact .of_error (bind_of_error hstop) hp.enclosing hp.current
  | ok t =>
    have hok := hp.ok t rfl
    exact .later (bind_of_ok hok) (by simpa only [hok] using hp.current) (hq t)

/-- A look at the tables, with what it finds for what follows. -/
theorem look_andThen {f : List Table → Except ScopeError α} {q : α → Pass Unit} {g : α → Except ScopeError Table}
    (hq : ∀ x, f (a.current :: a.enclosing) = .ok x → Gives (q x) a (g x)) :
    Gives (look f >>= q) a (f (a.current :: a.enclosing) >>= g) := by
  cases hf : f (a.current :: a.enclosing) with
  | error e => exact .of_error (bind_of_error (look_of_error hf)) rfl (.refl _)
  | ok x => exact .later (bind_of_ok (look_of_ok hf)) (.refl _) (hq x hf)

theorem look {f : List Table → Except ScopeError Unit} :
    Gives (Pass.look f) a (f (a.current :: a.enclosing) >>= fun _ => .ok a.current) := by
  cases hf : f (a.current :: a.enclosing) with
  | error e => exact .of_error (look_of_error hf) rfl (.refl _)
  | ok u => exact .of_ok (look_of_ok hf) (.refl _)

theorem declare_andThen {s : Symbol} {g : Table → Except ScopeError Table} (hs : ∀ body ∈ s.bodies, body.NodupNames)
    (hq : ∀ t, Gives q ⟨t, a.enclosing⟩ (g t)) :
    Gives (Pass.declare s >>= fun _ => q) a (a.current.declare s >>= g) := by
  cases hd : a.current.declare s with
  | error e => exact .of_error (bind_of_error (declare_of_error hd)) rfl (.refl _)
  | ok t =>
    have hrun := bind_of_ok (f := fun _ => q) (declare_of_ok hd)
    obtain ⟨hn, rfl⟩ := Table.declare_ok hd
    exact .later hrun (.push hn hs) (hq _)

/-- A procedure, where the pass over its body gives what the analysis of the body gives. -/
theorem procedure {name : String} {body : Block} {line : Nat}
    (hbody : ∀ outer, Gives body.update ⟨[], outer⟩ (body.analyze outer [])) :
    Gives (Stmt.update (.procedure name body line)) a
      (Stmt.analyze a.enclosing a.current (.procedure name body line)) := by
  rw [Stmt.analyze]
  cases hd : a.current.declare (.procedure name [] line) with
  | error e =>
    rw [Stmt.update]
    exact .of_error (bind_of_error (declare_of_error hd)) rfl (.refl _)
  | ok t =>
    have hdeclare := declare_of_ok hd
    obtain ⟨hn, rfl⟩ := Table.declare_ok hd
    have hb := hbody ((a.current ++ [.procedure name [] line]) :: a.enclosing)
    have hinner := inScope_eq (a := ⟨a.current ++ [.procedure name [] line], a.enclosing⟩) hb.enclosing
    have hlocals := hb.current.nodup_bodies
    rw [Stmt.update]
    change Gives _ a (body.analyze _ [] >>= fun locals => .ok (a.current ++ [.procedure name locals line]))
    cases hm : body.analyze ((a.current ++ [.procedure name [] line]) :: a.enclosing) [] with
    | error e =>
      -- the procedure stays in the table, without a body
      rw [hb.error e hm] at hinner
      refine .of_error (b := ⟨a.current ++ [.procedure name [] line], a.enclosing⟩) ?_ rfl
        (.push (s := .procedure name [] line) hn (ExtendsNodup.refl []).nodup_bodies)
      rw [bind_of_ok hdeclare, bind_of_ok hinner]
      exact bind_of_error rfl
    | ok locals =>
      rw [hb.ok locals hm] at hinner hlocals
      refine .of_ok ?_ (.push hn hlocals)
      rw [bind_of_ok hdeclare, bind_of_ok hinner]
      exact (bind_of_ok rfl).trans (store_last ..)

end Gives

end Pass

open Pass (Gives)

theorem Decl.gives (ds : List Decl) (a : Tables) :
    Gives (Decl.updateAll ds) a (Decl.analyzeAll a.enclosing ds a.current) := by
  induction ds generalizing a with
  | nil => exact .done
  | cons d ds ih =>
    refine .look_andThen fun s hs => .declare_andThen ?_ fun t => ih ⟨t, a.enclosing⟩
    simp [Decl.bodies_symbol hs]

mutual

theorem Stmt.gives (s : Stmt) (a : Tables) : Gives s.update a (s.analyze a.enclosing a.current) := by
  match s with
  | .assign name value line =>
    rw [Stmt.update, Stmt.analyze]
    exact .look_andThen fun _ _ => .look
  | .ifElse cond body elseIfs (some other) line =>
    rw [Stmt.update, Stmt.analyze]
    exact .look_andThen fun _ _ => (Stmt.givesAll body a).andThen fun t => (ElseIf.givesAll elseIfs _).andThen fun t' =>
      Stmt.givesAll other _
  | .ifElse cond body elseIfs none line =>
    rw [Stmt.update, Stmt.analyze]
    exact .look_andThen fun _ _ => (Stmt.givesAll body a).andThen fun t => (ElseIf.givesAll elseIfs _).andThen fun t' =>
      .done
  | .whileDo cond body line =>
    rw [Stmt.update, Stmt.analyze]
    exact .look_andThen fun _ _ => Stmt.givesAll body a
  | .forTo counter start bound body line =>
    rw [Stmt.update, Stmt.analyze]
    exact .look_andThen fun _ _ => .look_andThen fun _ _ => .look_andThen fun _ _ => Stmt.givesAll body a
  | .read names line =>
    rw [Stmt.update, Stmt.analyze]
    exact .look
  | .write values line =>
    rw [Stmt.update, Stmt.analyze]
    exact .look
  | .call name line =>
    rw [Stmt.update, Stmt.analyze]
    exact .look
  | .group body line =>
    rw [Stmt.update, Stmt.analyze]
    exact Stmt.givesAll body a
  | .procedure name body line => exact .procedure fun outer => Block.gives body ⟨[], outer⟩

theorem Stmt.givesAll (ss : List Stmt) (a : Tables) :
    Gives (Stmt.updateAll ss) a (Stmt.analyzeAll a.enclosing a.current ss) := by
  match ss with
  | [] =>
    rw [Stmt.updateAll, Stmt.analyzeAll]
    exact .done
  | s :: ss =>
    rw [Stmt.updateAll, Stmt.analyzeAll]
    exact (Stmt.gives s a).andThen fun t => Stmt.givesAll ss _

theorem ElseIf.givesAll (es : List ElseIf) (a : Tables) :
    Gives (ElseIf.updateAll es) a (ElseIf.analyzeAll a.enclosing a.current es) := by
  match es with
  | [] =>
    rw [ElseIf.updateAll, ElseIf.analyzeAll]
    exact .done
  | ⟨cond, body, line⟩ :: others =>
    rw [ElseIf.updateAll, ElseIf.analyzeAll]
    exact .look_andThen fun _ _ => (Stmt.givesAll body a).andThen fun t => ElseIf.givesAll others _

theorem Block.gives (b : Block) (a : Tables) : Gives b.update a (b.analyze a.enclosing a.current) := by
  match b with
  | ⟨decls, some s, line⟩ =>
    rw [Block.update, Block.analyze]
    exact (Decl.gives decls a).andThen fun t => Stmt.gives s _
  | ⟨decls, none, line⟩ =>
    rw [Block.update, Block.analyze]
    exact (Decl.gives decls a).andThen fun t => .done

end

theorem Block.givesAll (bs : List Block) (a : Tables) :
    Gives (Block.updateAll bs) a (Block.analyzeAll a.enclosing a.current bs) := by
  induction bs generalizing a with
  | nil => exact .done
  | cons b bs ih => exact (Block.gives b a).andThen fun t => ih ⟨t, a.enclosing⟩

namespace Tables

def NodupNames (a : Tables) : Prop := ∀ t ∈ a.current :: a.enclosing, t.NodupNames

/-- From `a` to `b` entries were only added to the current table, and no name twice in a scope. -/
structure Grows (a b : Tables) : Prop where
  enclosing : b.enclosing = a.enclosing
  added : ∃ new, b.current = a.current ++ new ∧ ∀ body ∈ Symbol.bodiesAll new, body.NodupNames
  nodup : b.NodupNames

end Tables

namespace Pass.Gives

variable {p : Pass Unit} {a b : Tables} {m : Except ScopeError Table}

theorem grows (h : Gives p a m) (ha : a.NodupNames) : a.Grows (p a).2 where
  enclosing := h.enclosing
  added := h.current.added
  nodup := by
    obtain ⟨hcurrent, henclosing⟩ := List.forall_mem_cons.mp ha
    rw [Tables.NodupNames, h.enclosing]
    exact List.forall_mem_cons.mpr ⟨h.current.nodup hcurrent, henclosing⟩

theorem of_run_ok (h : Gives p a m) (hrun : p a = (.ok (), b)) : m = .ok b.current := by
  cases m with
  | error e =>
    have herror := h.error e rfl
    rw [hrun] at herror
    cases herror
  | ok t =>
    have hok := h.ok t rfl
    rw [hrun] at hok
    cases hok
    rfl

theorem of_run_error {e : Halt} (h : Gives p a m) (hrun : p a = (.error e, b)) :
    ∃ cause, e = .names cause ∧ m = .error cause := by
  cases m with
  | error cause =>
    have herror := h.error cause rfl
    rw [hrun] at herror
    cases herror
    exact ⟨cause, rfl, rfl⟩
  | ok t =>
    have hok := h.ok t rfl
    rw [hrun] at hok
    cases hok

end Pass.Gives

theorem Program.update_eq (p : Program) : p.update = p.analyze.mapError .names := by
  have h := Block.givesAll p.blocks ⟨[], []⟩
  cases hm : p.analyze with
  | error e => rw [Program.update, h.error e hm]; rfl
  | ok t => rw [Program.update, h.ok t hm]; rfl

/-- A pass over a statement leaves the stack as it is and only adds entries, with no name twice in a scope, and stops only
for names: at every place that is kept for a procedure, in the statement or inside one of its procedures, stands that
procedure when the table of its body comes. -/
theorem Stmt.update_grows (s : Stmt) (a : Tables) (h : a.NodupNames) :
    (∀ b, s.update a = (.ok (), b) → a.Grows b ∧ s.analyze a.enclosing a.current = .ok b.current) ∧
    (∀ e b, s.update a = (.error e, b) →
      a.Grows b ∧ ∃ cause, e = .names cause ∧ s.analyze a.enclosing a.current = .error cause) ∧
    (∀ name line place b, declare (.procedure name [] line) a = (.ok place, b) →
      ∀ body : Block, (inScope body.update b).2 = b ∧ b.current[place]? = some (.procedure name [] line)) ∧
    ∀ p : Program, p.update = p.analyze.mapError .names := by
  have hs := Stmt.gives s a
  have hgrows := hs.grows h
  refine ⟨fun b hrun => ?_, fun e b hrun => ?_, fun name line place b hdeclare body => ?_, Program.update_eq⟩
  · rw [hrun] at hgrows
    exact ⟨hgrows, hs.of_run_ok hrun⟩
  · rw [hrun] at hgrows
    exact ⟨hgrows, hs.of_run_error hrun⟩
  · rw [Pass.inScope_eq (Block.gives body _).enclosing]
    exact ⟨rfl, Pass.declared_at_place hdeclare⟩

/-- Two procedures of one name, one inside the other, with a variable `x` in each of three scopes. -/
theorem Stmt.update_grows_nested : ∃ (s : Stmt) (a b : Tables),
    s = .procedure "q" ⟨[.var "x" none 2], some (.procedure "q" ⟨[.var "x" none 3], none, 3⟩ 3), 2⟩ 2 ∧
      a = ⟨[.var "x" none 1], [[.procedure "p" [] 1]]⟩ ∧ a.NodupNames ∧ s.update a = (.ok (), b) ∧ a.Grows b ∧
      b.current =
        [.var "x" none 1, .procedure "q" [.var "x" none 2, .procedure "q" [.var "x" none 3] 3] 2] := by
  let s : Stmt := .procedure "q" ⟨[.var "x" none 2], some (.procedure "q" ⟨[.var "x" none 3], none, 3⟩ 3), 2⟩ 2
  let a : Tables := ⟨[.var "x" none 1], [[.procedure "p" [] 1]]⟩
  have ha : a.NodupNames := by simp [Tables.NodupNames, Table.NodupNames, a]
  have hrun : s.update a = (.ok (), ⟨[.var "x" none 1, .procedure "q" [.var "x" none 2,
      .procedure "q" [.var "x" none 3] 3] 2], [[.procedure "p" [] 1]]⟩) := by rfl
  exact ⟨s, a, _, rfl, rfl, ha, hrun, ((Stmt.update_grows s a ha).1 _ hrun).1, rfl⟩

end PLZero
