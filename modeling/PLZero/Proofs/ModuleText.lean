import PLZero.Proofs.Declared
import PLZero.Proofs.ModuleTree
import PLZero.Proofs.Sexp
import PLZero.StackModule.Read

/-! The text of a stack module, read back. A module whose names are made of letters, digits and dots is read as the
list of its fields. -/

namespace PLZero

open Sexp

theorem leading_map {α β : Type} (read? : α → Option β) (write : β → α) (h : ∀ b, read? (write b) = some b)
    (bs : List β) {rest : List α} (hrest : ∀ a ∈ rest, read? a = none) :
    leading read? (bs.map write ++ rest) = (bs, rest) := by
  induction bs with
  | nil =>
    cases rest with
    | nil => rfl
    | cons a rest => simp [leading, hrest a List.mem_cons_self]
  | cons b bs ih =>
    rw [List.map_cons, List.cons_append, leading, h]
    simp [ih]

namespace Field

def exported (name : String) : Sexp := .list [.word "export", .quoted name]

def typed (head : String) : Sexp := .list [.word head, .word "i32"]

def declaredLocal (name : String) : Sexp := .list [.word "local", .word name, .word "i32"]

def globalType (mutable : Bool) : Sexp := if mutable then typed "mut" else .word "i32"

def sexp : Field → Sexp
  | .imported source name id params results =>
    .list [.word "import", .quoted source, .quoted name, .list (.word "func" :: .word id ::
      (List.replicate params (typed "param") ++ List.replicate results (typed "result")))]
  | .global id exports mutable value =>
    .list (.word "global" :: .word id :: (exports.map exported ++ [globalType mutable, value]))
  | .function id exports locals body =>
    .list (.word "func" :: .word id :: (exports.map exported ++ (locals.map declaredLocal ++ body)))

/-- No item of a body reads as an export or a local. -/
def Apart : Field → Prop
  | .imported .. => True
  | .global _ _ _ value => exported? value = none
  | .function _ _ _ body => ∀ x ∈ body, exported? x = none ∧ declaredLocal? x = none

theorem exported?_globalType (mutable : Bool) : exported? (globalType mutable) = none := by
  cases mutable <;> rfl

theorem globalType?_globalType (mutable : Bool) : globalType? (globalType mutable) = some mutable := by
  cases mutable <;> rfl

theorem ofSexp?_sexp {f : Field} (h : f.Apart) : ofSexp? f.sexp = some f := by
  cases f with
  | imported source name id params results =>
    have hrest : ∀ x ∈ List.replicate results (typed "result"), typed? "param" x = none := by
      intro x hx
      rw [List.eq_of_mem_replicate hx]
      rfl
    have hparams := leading_map (typed? "param") (fun _ => typed "param") (fun _ => rfl)
      (List.replicate params ()) hrest
    have hresults := leading_map (typed? "result") (fun _ => typed "result") (fun _ => rfl)
      (List.replicate results ()) (List.forall_mem_nil _)
    rw [List.map_replicate] at hparams hresults
    rw [List.append_nil] at hresults
    have hread (types : List Sexp) : ofSexp? (.list [.word "import", .quoted source, .quoted name,
        .list (.word "func" :: .word id :: types)]) =
        let first := leading (typed? "param") types
        let second := leading (typed? "result") first.2
        if second.2.isEmpty then some (.imported source name id first.1.length second.1.length)
        else none := rfl
    rw [sexp, hread]
    simp [hparams, hresults]
  | global id exports mutable value =>
    have hrest : ∀ x ∈ [globalType mutable, value], exported? x = none :=
      List.forall_mem_cons.mpr ⟨exported?_globalType mutable, List.forall_mem_singleton.mpr h⟩
    have hexports := leading_map exported? exported (fun _ => rfl) exports hrest
    simp [sexp, ofSexp?, global?, hexports, globalType?_globalType]
  | function id exports locals body =>
    have hrest : ∀ x ∈ locals.map declaredLocal ++ body, exported? x = none := by
      intro x hx
      rcases List.mem_append.mp hx with hx | hx
      · obtain ⟨name, -, rfl⟩ := List.mem_map.mp hx
        rfl
      · exact (h x hx).1
    have hexports := leading_map exported? exported (fun _ => rfl) exports hrest
    have hlocals := leading_map declaredLocal? declaredLocal (fun _ => rfl) locals fun x hx => (h x hx).2
    simp [sexp, ofSexp?, function?, hexports, hlocals]

theorem allOfText?_eq {text : String} {fs : List Field} (h : ∀ f ∈ fs, f.Apart)
    (ht : Sexp.ofText? text = some (.list (.word "module" :: fs.map sexp))) : allOfText? text = some fs := by
  have hfields : (fs.map sexp).mapM ofSexp? = some fs := by
    clear ht
    induction fs with
    | nil => rfl
    | cons f fs ih =>
      obtain ⟨hf, hfs⟩ := List.forall_mem_cons.mp h
      simp [List.mapM_cons, ofSexp?_sexp hf, ih hfs]
  simp [allOfText?, ht, items?, hfields]

end Field

namespace StackModule

def const (v : Int32) : Sexp := .list [.word "i32.const", .word (Text.ofWord v)]

def get (global : String) : Sexp := .list [.word "global.get", .word ("$" ++ global)]

def set (global : String) (value : Sexp) : Sexp := .list [.word "global.set", .word ("$" ++ global), value]

def exprSexp : Folded → Sexp
  | .const v => const v
  | .name global => get global
  | .binary op left right => .list [.word (opName op), exprSexp left, exprSexp right]

mutual

def Code.sexp : Code → Sexp
  | .set global value => StackModule.set global (exprSexp value)
  | .read global => StackModule.set global (.list [.word "call", .word Hook.read.id])
  | .write value => .list [.word "call", .word Hook.write.id, exprSexp value]
  | .call function => .list [.word "call", .word ("$" ++ function)]
  | .ifElse cond body otherwise =>
    .list (.word "if" :: exprSexp cond :: .list (.word "then" :: Code.sexpAll body) ::
      (match otherwise with
        | some body => [.list (.word "else" :: Code.sexpAll body)]
        | none => []))
  | .block label body => .list (.word "block" :: .word label.text :: Code.sexpAll body)
  | .loop label body => .list (.word "loop" :: .word label.text :: Code.sexpAll body)
  | .branch label => .list [.word "br", .word label.text]
  | .branchIfZero label value => .list [.word "br_if", .word label.text, .list [.word "i32.eqz", exprSexp value]]
  | .branchUnlessBelow label global bound =>
    .list [.word "br_if", .word label.text, .list [.word "i32.ge_s", get global, exprSexp bound]]
  | .increment global => StackModule.set global (.list [.word "i32.add", get global, const 1])

def Code.sexpAll : List Code → List Sexp
  | [] => []
  | c :: rest => c.sexp :: Code.sexpAll rest

end

theorem Code.sexpAll_eq_map (cs : List Code) : Code.sexpAll cs = cs.map Code.sexp := by
  induction cs with
  | nil => rfl
  | cons c cs ih => rw [Code.sexpAll, ih, List.map_cons]

def Global.field (g : Global) : Field :=
  .global ("$" ++ g.id) g.exported.toList g.constant.isNone (const (g.constant.getD 0))

/-- What a function does with its saved globals before its body: each is put into a local and cleared. -/
def saving (slots : List (String × Nat)) : List Sexp :=
  slots.flatMap fun (g, i) =>
    [.list [.word "local.set", .word (savedLocal i), get g], StackModule.set g (const 0)]

def restoring (slots : List (String × Nat)) : List Sexp :=
  slots.reverse.map fun (g, i) => StackModule.set g (.list [.word "local.get", .word (savedLocal i)])

def functionField (id : String) (exports saved : List String) (body : List Code) : Field :=
  .function ("$" ++ id) exports (saved.zipIdx.map fun (_, i) => savedLocal i)
    (saving saved.zipIdx ++ Code.sexpAll body ++ restoring saved.zipIdx)

def fields (m : StackModule) : List Field :=
  Hook.all.map (fun h => .imported h.source h.name h.id h.params h.results) ++ m.globals.map Global.field
    ++ m.functions.map (fun f => functionField f.id [] f.saved f.body)
    ++ [functionField entryId [entryExport] [] m.entry]

theorem savedLocal_injective : Function.Injective savedLocal := by
  intro i j h
  have hrepr : i.repr = j.repr := (String.append_right_inj _).mp h
  have hdigits : Nat.toDigits 10 i = Nat.toDigits 10 j := by rw [← Nat.toList_repr, hrepr, Nat.toList_repr]
  calc
    i = Nat.ofDigitChars 10 (Nat.toDigits 10 i) 0 := Nat.ofDigitChars_ten_toDigits.symm
    _ = Nat.ofDigitChars 10 (Nat.toDigits 10 j) 0 := by rw [hdigits]
    _ = j := Nat.ofDigitChars_ten_toDigits

theorem toList_pushn (c : Char) (n : Nat) : ("".pushn c n).toList = List.replicate n c := by
  induction n with
  | zero => rfl
  | succ n ih =>
    rw [String.pushn] at ih
    rw [String.pushn, Nat.repeat, String.toList_push, ih, List.replicate_succ']

/-- Lines with these contents are read as these lexemes, whatever follows and however they are indented. -/
def LexesLines (contents : List String) (xs : List Lexeme) : Prop :=
  ∀ ls : List Line, ls.map Line.content = contents → ∀ rest,
    scanned .nothing ((String.join (ls.map Line.text)).toList ++ rest) = xs ++ scanned .nothing rest

namespace LexesLines

variable {ls ls' : List String} {xs xs' : List Lexeme} {content : String} {rest : List Sexp}

theorem nil : LexesLines [] (lexemesAll []) := by
  intro lines hlines rest
  rw [List.map_eq_nil_iff.mp hlines]
  rfl

theorem append (h : LexesLines ls xs) (h' : LexesLines ls' xs') :
    LexesLines (ls ++ ls') (xs ++ xs') := by
  intro lines hlines rest
  obtain ⟨first, second, rfl, hfirst, hsecond⟩ := List.map_eq_append_iff.mp hlines
  rw [List.map_append, String.join_append, String.toList_append, List.append_assoc, h first hfirst,
    h' second hsecond, List.append_assoc]

theorem line (h : Lexes content xs) : LexesLines [content] xs := by
  have hblanks (n : Nat) (cs : List Char) :
      scanned .nothing (List.replicate n ' ' ++ cs) = scanned .nothing cs := by
    induction n with
    | zero => rfl
    | succ n ih => rw [List.replicate_succ, List.cons_append, scan_blank, ih]
  intro lines hlines rest
  obtain ⟨l, rfl, rfl⟩ := List.map_eq_singleton_iff.mp hlines
  have hcs : l.text.toList ++ rest =
      List.replicate (2 * l.depth) ' ' ++ (l.content.toList ++ '\n' :: rest) := by
    simp [Line.text, toList_pushn]
  rw [List.map_singleton, String.join_cons, String.join_nil, String.append_empty, hcs, hblanks,
    h '\n' rest rfl, scan_lineEnd]

theorem cons {x : Sexp} (h : LexesLines ls x.lexemes) (h' : LexesLines ls' (lexemesAll rest)) :
    LexesLines (ls ++ ls') (lexemesAll (x :: rest)) :=
  h.append h'

theorem both {items : List Sexp} (h : LexesLines ls (lexemesAll items)) (h' : LexesLines ls' (lexemesAll rest)) :
    LexesLines (ls ++ ls') (lexemesAll (items ++ rest)) := by
  rw [lexemesAll_append]
  exact h.append h'

theorem all {α : Type} {f : α → List String} {g : α → List Sexp} (as : List α)
    (h : ∀ a ∈ as, LexesLines (f a) (lexemesAll (g a))) : LexesLines (as.flatMap f) (lexemesAll (as.flatMap g)) := by
  induction as with
  | nil => exact .nil
  | cons a as ih =>
    rw [List.flatMap_cons, List.flatMap_cons]
    exact (h a (by simp)).both (ih fun b hb => h b (by simp [hb]))

theorem each {α : Type} {f : α → List String} {g : α → Sexp} (as : List α)
    (h : ∀ a ∈ as, LexesLines (f a) (g a).lexemes) : LexesLines (as.flatMap f) (lexemesAll (as.map g)) := by
  rw [List.map_eq_flatMap]
  refine .all as fun a ha => ?_
  rw [lexemesAll, lexemesAll, List.append_nil]
  exact h a ha

theorem one {x : Sexp} (hx : x.Clean) (h : content = x.text) : LexesLines [content] x.lexemes :=
  .line (h ▸ lexes_text x hx)

/-- A list whose first items stand on a line of their own, the others and the end on further lines. -/
theorem nested (items : List Sexp) (hitems : CleanAll items)
    (h : content = "(" ++ textAll items) (hrest : LexesLines ls (lexemesAll rest)) :
    LexesLines (content :: ls ++ [")"]) (Sexp.list (items ++ rest)).lexemes := by
  have hall := ((line (h ▸ lexes_head hitems)).append hrest).append (line lexes_closing)
  rw [lexemes, lexemesAll_append]
  simpa using hall

end LexesLines

end StackModule

/-- `P` holds of all names in an expression. -/
def Folded.Over (P : String → Prop) : Folded → Prop
  | .const _ => True
  | .name n => P n
  | .binary _ left right => left.Over P ∧ right.Over P

namespace StackModule

variable {name g : String}

/-- The names that code may get, set and call. -/
structure Access where
  get : String → Prop
  set : String → Prop
  call : String → Prop

mutual

/-- The code uses names only as it may, and branches only to labels around it. -/
def Code.Valid (a : Access) (labels : List Label) : Code → Prop
  | .set global value => a.set global ∧ value.Over a.get
  | .read global => a.set global
  | .write value => value.Over a.get
  | .call function => a.call function
  | .ifElse cond body otherwise => cond.Over a.get ∧ Code.ValidAll a labels body ∧
    match otherwise with
    | some body => Code.ValidAll a labels body
    | none => True
  | .block label body => Code.ValidAll a (label :: labels) body
  | .loop label body => Code.ValidAll a (label :: labels) body
  | .branch label => label ∈ labels
  | .branchIfZero label value => label ∈ labels ∧ value.Over a.get
  | .branchUnlessBelow label global bound => label ∈ labels ∧ a.get global ∧ bound.Over a.get
  | .increment global => a.get global ∧ a.set global

def Code.ValidAll (a : Access) (labels : List Label) : List Code → Prop
  | [] => True
  | c :: rest => c.Valid a labels ∧ Code.ValidAll a labels rest

end

/-- A name made of characters of words. -/
def IsName (name : String) : Prop := ∀ c ∈ name.toList, isWordChar c = true

structure Access.Named (a : Access) : Prop where
  get : ∀ name, a.get name → IsName name
  set : ∀ name, a.set name → IsName name
  call : ∀ name, a.call name → IsName name

theorem clean_word {w : String} (h : w ≠ "" ∧ w.toList.all isWordChar = true) : (Sexp.word w).Clean :=
  ⟨h.1, List.all_eq_true.mp h.2⟩

theorem clean_id (h : IsName name) : (Sexp.word ("$" ++ name)).Clean := by
  refine ⟨by simp, fun c hc => ?_⟩
  rw [String.toList_append] at hc
  rcases List.mem_append.mp hc with hc | hc
  · rw [List.mem_singleton.mp hc]
    rfl
  · exact h c hc

theorem isName_ofNat (n : Nat) : IsName (Text.ofNat n) := by
  intro c hc
  simp [isWordChar, Char.isAlphanum, Text.isDigit_ofNat hc]

theorem clean_numbered {w : String} (h : w ≠ "" ∧ w.toList.all isWordChar = true) (n : Nat) :
    (Sexp.word (w ++ Text.ofNat n)).Clean := by
  refine ⟨by simp [h.1], fun c hc => ?_⟩
  rw [String.toList_append] at hc
  rcases List.mem_append.mp hc with hc | hc
  · exact List.all_eq_true.mp h.2 c hc
  · exact isName_ofNat n c hc

theorem clean_ofNat (n : Nat) : (Sexp.word (Text.ofNat n)).Clean := by
  refine ⟨fun hnil => ?_, isName_ofNat n⟩
  have : Nat.toDigits 10 n = [] := by rw [← Nat.toList_repr]; exact String.toList_eq_nil_iff.mpr hnil
  exact Nat.toDigits_ne_nil this

theorem clean_ofWord (v : Int32) : (Sexp.word (Text.ofWord v)).Clean := by
  rw [Text.ofWord]
  cases v.toInt with
  | ofNat n => exact clean_ofNat n
  | negSucc n => exact clean_numbered (w := "-") (by decide) (n + 1)

theorem clean_label (l : Label) : (Sexp.word l.text).Clean := by
  cases l with
  | behind n => exact clean_numbered (by decide) n
  | again n => exact clean_numbered (by decide) n

theorem clean_const (v : Int32) : (const v).Clean := ⟨clean_word (by decide), clean_ofWord v, trivial⟩

theorem clean_get (h : IsName name) : (get name).Clean :=
  ⟨clean_word (by decide), clean_id h, trivial⟩

theorem clean_set {value : Sexp} (h : IsName name) (hv : value.Clean) : (set name value).Clean :=
  ⟨clean_word (by decide), clean_id h, hv, trivial⟩

theorem clean_exprSexp {P : String → Prop} (hP : ∀ name, P name → IsName name) {e : Folded} (h : e.Over P) :
    (exprSexp e).Clean := by
  induction e with
  | const v => exact clean_const v
  | name n => exact clean_get (hP n h)
  | binary op left right ihl ihr =>
    exact ⟨clean_word (by cases op <;> decide), ihl h.1, ihr h.2, trivial⟩

theorem getText_eq (name : String) : getText name = (get name).text := by
  -- by `rfl`, since `simp` takes long to open these texts
  have hget : getText name = "(global.get $" ++ name ++ ")" := rfl
  rw [hget]
  apply String.toList_inj.mp
  simp [get, Sexp.text, textAll]

theorem constText_eq (v : Int32) : constText v = (const v).text := by
  have hconst : constText v = "(i32.const " ++ Text.ofWord v ++ ")" := rfl
  rw [hconst]
  apply String.toList_inj.mp
  simp [const, Sexp.text, textAll]

theorem setText_eq (name : String) (value : Sexp) : setText name value.text = (set name value).text := by
  have hset : setText name value.text = "(global.set $" ++ name ++ " " ++ value.text ++ ")" := rfl
  rw [hset]
  apply String.toList_inj.mp
  simp [set, Sexp.text, textAll]

theorem operText_eq (op : BinOp) (left right : Sexp) : operText op left.text right.text =
    (Sexp.list [.word (opName op), left, right]).text := by
  apply String.toList_inj.mp
  simp [operText, Sexp.text, textAll]

theorem exprText_eq (e : Folded) : exprText e = (exprSexp e).text := by
  induction e with
  | const v => exact constText_eq v
  | name n => exact getText_eq n
  | binary op left right ihl ihr => rw [exprText, ihl, ihr, operText_eq, exprSexp]

theorem guardText_eq (cond : Folded) :
    "(if " ++ exprText cond = "(" ++ textAll [.word "if", exprSexp cond] := by
  apply String.toList_inj.mp
  simp [Sexp.text, textAll, exprText_eq]

theorem labelText_eq (head : String) (label : Label) :
    "(" ++ head ++ " " ++ label.text = "(" ++ textAll [.word head, .word label.text] := by
  apply String.toList_inj.mp
  simp [Sexp.text, textAll]

theorem branchIfText_eq (label : Label) (cond : Sexp) : Writer.branchIfText label.text cond.text =
    (Sexp.list [.word "br_if", .word label.text, cond]).text := by
  apply String.toList_inj.mp
  simp [Writer.branchIfText, Sexp.text, textAll]

def Edit.content : Edit → String
  | .line text | .opening text => text
  | .closing => ")"

theorem contents_ofEdits (es : List Edit) :
    (Body.ofEdits es).lines.toList.map Line.content = es.map Edit.content := by
  have hfrom (b : Body) : (es.foldl Body.edit b).lines.toList.map Line.content =
      b.lines.toList.map Line.content ++ es.map Edit.content := by
    induction es generalizing b with
    | nil => simp
    | cons e es ih => cases e <;> simp [ih, Body.edit, Body.line, Edit.content]
  exact hfrom _

/-- A guard with its branch, and what stands behind that in the conditional. -/
theorem lexes_guarded {cond : Folded} {body rest : List Sexp} {ls ls' : List String}
    (hcond : (exprSexp cond).Clean) (hbody : LexesLines ls (lexemesAll body))
    (hrest : LexesLines ls' (lexemesAll rest)) :
    LexesLines (("(if " ++ exprText cond) :: ("(then" :: ls ++ [")"] ++ ls') ++ [")"])
      (Sexp.list ([.word "if", exprSexp cond] ++ .list ([.word "then"] ++ body) :: rest)).lexemes :=
  .nested _ ⟨clean_word (by decide), hcond, trivial⟩ (guardText_eq cond)
    ((LexesLines.nested [.word "then"] ⟨clean_word (by decide), trivial⟩ rfl hbody).cons hrest)

variable {a : Access}

mutual

/-- The edits of code are read as its expression. -/
theorem Code.lexes {labels : List Label} (ha : a.Named) (c : Code) (h : c.Valid a labels) :
    LexesLines (c.edits.map Edit.content) c.sexp.lexemes := by
  match c with
  | .set global value =>
    refine .one (clean_set (ha.set _ h.1) (clean_exprSexp ha.get h.2)) ?_
    rw [Edit.content, exprText_eq]
    exact setText_eq _ _
  | .read global =>
    refine .one (clean_set (ha.set _ h) ⟨clean_word (by decide), clean_word (by decide), trivial⟩) ?_
    exact setText_eq global (.list [.word "call", .word Hook.read.id])
  | .write value =>
    refine .one ⟨clean_word (by decide), clean_word (by decide), clean_exprSexp ha.get h, trivial⟩ ?_
    apply String.toList_inj.mp
    simp [Edit.content, Code.sexp, Sexp.text, textAll, exprText_eq]
  | .call function =>
    refine .one ⟨clean_word (by decide), clean_id (ha.call _ h), trivial⟩ ?_
    apply String.toList_inj.mp
    simp [Edit.content, Code.sexp, Sexp.text, textAll]
  | .ifElse cond body (some other) =>
    have helse := LexesLines.nested [.word "else"] ⟨clean_word (by decide), trivial⟩
      (rfl : "(else" = _) (Code.lexesAll ha other h.2.2)
    have hif := lexes_guarded (clean_exprSexp ha.get h.1) (Code.lexesAll ha body h.2.1)
      (helse.cons .nil)
    simpa [Code.edits, Code.sexp, Writer.openGuard, Edit.content] using hif
  | .ifElse cond body none =>
    have hif := lexes_guarded (clean_exprSexp ha.get h.1) (Code.lexesAll ha body h.2.1) .nil
    simpa [Code.edits, Code.sexp, Writer.openGuard, Edit.content] using hif
  | .block label body =>
    have hall := LexesLines.nested [.word "block", .word label.text]
      ⟨clean_word (by decide), clean_label label, trivial⟩ (labelText_eq "block" label)
      (Code.lexesAll ha body h)
    simpa [Code.edits, Code.sexp, Edit.content] using hall
  | .loop label body =>
    have hall := LexesLines.nested [.word "loop", .word label.text]
      ⟨clean_word (by decide), clean_label label, trivial⟩ (labelText_eq "loop" label)
      (Code.lexesAll ha body h)
    simpa [Code.edits, Code.sexp, Edit.content] using hall
  | .branch label =>
    refine .one ⟨clean_word (by decide), clean_label label, trivial⟩ ?_
    apply String.toList_inj.mp
    simp [Edit.content, Code.sexp, Sexp.text, textAll]
  | .branchIfZero label value =>
    refine .one ⟨clean_word (by decide), clean_label label,
      ⟨clean_word (by decide), clean_exprSexp ha.get h.2, trivial⟩, trivial⟩ ?_
    have htest : "(i32.eqz " ++ exprText value ++ ")" =
        (Sexp.list [.word "i32.eqz", exprSexp value]).text := by
      apply String.toList_inj.mp
      simp [Sexp.text, textAll, exprText_eq]
    rw [Edit.content, htest]
    exact branchIfText_eq _ _
  | .branchUnlessBelow label global bound =>
    refine .one ⟨clean_word (by decide), clean_label label, ⟨clean_word (by decide),
      clean_get (ha.get _ h.2.1), clean_exprSexp ha.get h.2.2, trivial⟩, trivial⟩ ?_
    rw [Edit.content, getText_eq, exprText_eq, operText_eq]
    exact branchIfText_eq _ _
  | .increment global =>
    refine .one (clean_set (ha.set _ h.2)
      ⟨clean_word (by decide), clean_get (ha.get _ h.1), clean_const 1, trivial⟩) ?_
    rw [Edit.content, getText_eq, constText_eq, operText_eq]
    exact setText_eq _ _

theorem Code.lexesAll {labels : List Label} (ha : a.Named) (cs : List Code)
    (h : Code.ValidAll a labels cs) :
    LexesLines ((Code.editsAll cs).map Edit.content) (lexemesAll (Code.sexpAll cs)) := by
  match cs with
  | [] => exact .nil
  | c :: cs =>
    rw [Code.editsAll, List.map_append]
    exact (Code.lexes ha c h.1).cons (Code.lexesAll ha cs h.2)

end

/-- Letters, digits and dots, as in the path of a declaration. -/
def IsDotted (name : String) : Prop := ∀ c ∈ name.toList, c.isAlphanum = true ∨ c = '.'

theorem IsDotted.isName (h : IsDotted name) : IsName name := by
  intro c hc
  rcases h c hc with hc | rfl
  · simp [isWordChar, hc]
  · decide

theorem IsDotted.clean_quoted (h : IsDotted name) : (Sexp.quoted name).Clean := by
  intro c hc
  rcases h c hc with hc | rfl
  · have hrange : 48 ≤ c.toNat ∧ c.toNat ≤ 122 := by
      have hcases : (decide (65 ≤ c.val ∧ c.val ≤ 90) || (decide (97 ≤ c.val) && decide (c.val ≤ 122)) ||
        (decide (48 ≤ c.val) && decide (c.val ≤ 57))) = true := hc
      simp only [Bool.or_eq_true, Bool.and_eq_true, decide_eq_true_eq, UInt32.le_iff_toNat_le,
        UInt32.reduceToNat] at hcases
      change 48 ≤ c.val.toNat ∧ c.val.toNat ≤ 122
      omega
    have hquote : c ≠ '"' := by rintro rfl; revert hc; decide
    have hslash : c ≠ '\\' := by rintro rfl; revert hc; decide
    simp [isPlainChar, hquote, hslash]
    omega
  · decide

/-- The names that the code of a module may use: its globals, those that are no constants, its functions. -/
def access (m : StackModule) : Access where
  get name := ∃ g ∈ m.globals, g.id = name
  set name := ∃ g ∈ m.globals, g.id = name ∧ g.constant = none
  call name := ∃ f ∈ m.functions, f.id = name

/-- A function that saves only what it may set, and whose body uses names only as it may. -/
structure Function.Valid (a : Access) (f : Function) : Prop where
  saved : ∀ name ∈ f.saved, a.set name
  body : Code.ValidAll a [] f.body

/-- All code of the module uses names that it defines, no name is defined twice, and all names can be read back. -/
structure WellFormed (m : StackModule) : Prop where
  globals_nodup : (m.globals.map Global.id).Nodup
  functions_nodup : (m.functions.map Function.id).Nodup
  globals : ∀ g ∈ m.globals, IsDotted g.id
  functions : ∀ f ∈ m.functions, IsDotted f.id ∧ f.Valid m.access
  exports : ∀ g ∈ m.globals, ∀ name ∈ g.exported, name = g.id ∧ name ≠ entryExport
  entry : Code.ValidAll m.access [] m.entry

variable {m : StackModule}

theorem WellFormed.named (h : m.WellFormed) : m.access.Named where
  get name hn := by
    obtain ⟨g, hg, rfl⟩ := hn
    exact (h.globals g hg).isName
  set name hn := by
    obtain ⟨g, hg, rfl, -⟩ := hn
    exact (h.globals g hg).isName
  call name hn := by
    obtain ⟨f, hf, rfl⟩ := hn
    exact (h.functions f hf).1.isName

theorem clean_exports {exported : Option String} (h : ∀ name ∈ exported, IsDotted name) {rest : List Sexp}
    (hrest : CleanAll rest) : CleanAll (exported.toList.map Field.exported ++ rest) := by
  cases exported with
  | none => exact hrest
  | some name => exact ⟨⟨clean_word (by decide), (h name rfl).clean_quoted, trivial⟩, hrest⟩

theorem lexes_global {g : Global} (hid : IsDotted g.id) (hexport : ∀ name ∈ g.exported, IsDotted name) :
    LexesLines [g.line.content] g.field.sexp.lexemes := by
  obtain ⟨id, exported, constant⟩ := g
  refine .one ⟨clean_word (by decide), clean_id hid.isName, clean_exports hexport ⟨?_, clean_const _, trivial⟩⟩ ?_
  · cases constant with
    | none => exact ⟨clean_word (by decide), clean_word (by decide), trivial⟩
    | some v => exact clean_word (by decide)
  · apply String.toList_inj.mp
    cases exported <;> cases constant <;>
      simp [Global.line, Global.field, Field.sexp, Field.exported, Field.globalType, Field.typed, exportText, Sexp.text, textAll,
        constText_eq]

theorem functionText_eq (id : String) (exported : Option String) : "(func $" ++ id ++ exported.elim "" exportText =
    "(" ++ textAll (.word "func" :: .word ("$" ++ id) :: exported.toList.map Field.exported) := by
  apply String.toList_inj.mp
  cases exported <;> simp [Field.exported, exportText, Sexp.text, textAll]

theorem clean_savedLocal (i : Nat) : (Sexp.word (savedLocal i)).Clean := clean_numbered (by decide) i

theorem lexes_local (i : Nat) : LexesLines ["(local " ++ savedLocal i ++ " i32)"]
    (Field.declaredLocal (savedLocal i)).lexemes := by
  refine .one ⟨clean_word (by decide), clean_savedLocal i, clean_word (by decide), trivial⟩ ?_
  apply String.toList_inj.mp
  simp [Field.declaredLocal, Sexp.text, textAll]

theorem lexes_save (hg : IsName g) (i : Nat) :
    LexesLines ["(local.set " ++ savedLocal i ++ " " ++ getText g ++ ")"]
      (Sexp.list [.word "local.set", .word (savedLocal i), get g]).lexemes := by
  refine .one ⟨clean_word (by decide), clean_savedLocal i, clean_get hg, trivial⟩ ?_
  apply String.toList_inj.mp
  simp [Sexp.text, textAll, getText_eq]

theorem lexes_clear (hg : IsName g) :
    LexesLines [setText g (constText 0)] (StackModule.set g (const 0)).lexemes := by
  refine .one (clean_set hg (clean_const 0)) ?_
  rw [constText_eq, setText_eq]

theorem lexes_restore (hg : IsName g) (i : Nat) :
    LexesLines [setText g ("(local.get " ++ savedLocal i ++ ")")]
      (StackModule.set g (.list [.word "local.get", .word (savedLocal i)])).lexemes := by
  refine .one (clean_set hg ⟨clean_word (by decide), clean_savedLocal i, trivial⟩) ?_
  rw [← setText_eq]
  apply congrArg
  apply String.toList_inj.mp
  simp [Sexp.text, textAll]

theorem lexes_function {id : String} {saved : List String} {body : List Code} (exported : Option String)
    (ha : a.Named) (hid : IsName id) (hexport : ∀ name ∈ exported, IsDotted name)
    (hsaved : ∀ name ∈ saved, IsName name) (hbody : Code.ValidAll a [] body) :
    LexesLines ((functionLines id exported saved (Code.editsAll body)).map Line.content)
      (functionField id exported.toList saved body).sexp.lexemes := by
  have hslot {x : String × Nat} (hx : x ∈ saved.zipIdx) : IsName x.1 := hsaved _ (List.fst_mem_of_mem_zipIdx hx)
  have hhead : CleanAll (.word "func" :: .word ("$" ++ id) :: exported.toList.map Field.exported) := by
    rw [← List.append_nil (exported.toList.map Field.exported)]
    exact ⟨clean_word (by decide), clean_id hid, clean_exports hexport trivial⟩
  have hlocals := LexesLines.each saved.zipIdx fun x _ => lexes_local x.2
  have hsaving := LexesLines.all saved.zipIdx
    fun x hx => (lexes_save (hslot hx) x.2).cons ((lexes_clear (hslot hx)).cons .nil)
  have hrestoring := LexesLines.each saved.zipIdx.reverse
    fun x hx => lexes_restore (hslot (List.mem_reverse.mp hx)) x.2
  have hall := LexesLines.nested _ hhead (functionText_eq id exported)
    (((hlocals.both hsaving).both (Code.lexesAll ha body hbody)).both hrestoring)
  rw [← List.map_eq_flatMap, ← List.map_eq_flatMap] at hall
  simpa [functionLines, functionField, Field.sexp, saving, restoring, contents_ofEdits,
    Function.comp_def, List.map_flatMap] using hall

theorem lexes_hook {h : Hook} (hh : h ∈ Hook.all) :
    LexesLines [h.importText] (Field.imported h.source h.name h.id h.params h.results).sexp.lexemes := by
  have hplain {text : String} (ht : text.toList.all isPlainChar = true) : (Sexp.quoted text).Clean :=
    List.all_eq_true.mp ht
  have htype {w : String} (hw : w ≠ "" ∧ w.toList.all isWordChar = true) : (Sexp.list [.word w, .word "i32"]).Clean :=
    ⟨clean_word hw, clean_word (by decide), trivial⟩
  have hcases : h = Hook.read ∨ h = Hook.write := by simpa [Hook.all] using hh
  rcases hcases with rfl | rfl
  · exact .one ⟨clean_word (by decide), hplain (by decide), hplain (by decide),
      ⟨clean_word (by decide), clean_word (by decide), htype (by decide), trivial⟩, trivial⟩ (by decide)
  · exact .one ⟨clean_word (by decide), hplain (by decide), hplain (by decide),
      ⟨clean_word (by decide), clean_word (by decide), htype (by decide), trivial⟩, trivial⟩ (by decide)

theorem WellFormed.ofText?_text (h : m.WellFormed) :
    Sexp.ofText? m.text = some (.list (.word "module" :: m.fields.map Field.sexp)) := by
  have hglobal {g : Global} (hg : g ∈ m.globals) : ∀ name ∈ g.exported, IsDotted name :=
    fun name hname => (h.exports g hg name hname).1 ▸ h.globals g hg
  have hsaved {f : Function} (hf : f ∈ m.functions) : ∀ name ∈ f.saved, IsName name :=
    fun name hname => h.named.set name ((h.functions f hf).2.saved name hname)
  have hhooks := LexesLines.each Hook.all fun k hk => lexes_hook hk
  have hglobals := LexesLines.each m.globals fun g hg => lexes_global (h.globals g hg) (hglobal hg)
  have hfunctions := LexesLines.each m.functions fun f hf =>
    lexes_function none h.named (h.functions f hf).1.isName (by simp) (hsaved hf) (h.functions f hf).2.body
  have hmain : ∀ name ∈ some entryExport, IsDotted name := by
    rintro _ ⟨⟩ c hc
    exact .inl (List.all_eq_true.mp (show entryExport.toList.all Char.isAlphanum = true by decide) c hc)
  have hid : IsName entryId := List.all_eq_true.mp (show entryId.toList.all isWordChar = true by decide)
  have hentry := lexes_function (some entryExport) h.named hid hmain (List.forall_mem_nil _) h.entry
  have hall := LexesLines.nested [.word "module"] ⟨clean_word (by decide), trivial⟩
    (show "(module" = _ by decide) (((hhooks.both hglobals).both hfunctions).both (hentry.cons .nil))
  rw [← List.map_eq_flatMap, ← List.map_eq_flatMap] at hall
  have hscan := hall m.lines
    (by simp [lines, moduleLines, entryLines, Function.lines, List.flatMap, Function.comp_def]) []
  apply ofText?_of_scan
  simpa [StackModule.text, fields, Function.comp_def, scanned, Begun.last] using hscan

/-- What holds of saving, clearing and putting back each slot, and of the code between, holds of a whole body. -/
theorem forall_mem_body {P : Sexp → Prop} {slots : List (String × Nat)} {code : List Sexp}
    (hslots : ∀ g i, (g, i) ∈ slots → P (.list [.word "local.set", .word (savedLocal i), get g]) ∧
      P (StackModule.set g (const 0)) ∧ P (StackModule.set g (.list [.word "local.get", .word (savedLocal i)])))
    (hcode : ∀ x ∈ code, P x) : ∀ x ∈ saving slots ++ code ++ restoring slots, P x := by
  intro x hx
  rcases List.mem_append.mp hx with hx | hx
  · rcases List.mem_append.mp hx with hx | hx
    · obtain ⟨⟨g, i⟩, hg, hx⟩ := List.mem_flatMap.mp hx
      obtain ⟨hsave, hclear, -⟩ := hslots g i hg
      simp only [List.mem_cons, List.not_mem_nil, or_false] at hx
      rcases hx with rfl | rfl
      · exact hsave
      · exact hclear
    · exact hcode x hx
  · obtain ⟨⟨g, i⟩, hg, rfl⟩ := List.mem_map.mp hx
    exact (hslots g i (List.mem_reverse.mp hg)).2.2

theorem functionField_apart (id : String) (exports saved : List String) (body : List Code) :
    (functionField id exports saved body).Apart := by
  refine forall_mem_body (fun g i _ => ⟨⟨rfl, rfl⟩, ⟨rfl, rfl⟩, rfl, rfl⟩) ?_
  rw [Code.sexpAll_eq_map]
  refine List.forall_mem_map.mpr fun c _ => ?_
  cases c <;> exact ⟨rfl, rfl⟩

theorem fields_apart (m : StackModule) : ∀ f ∈ m.fields, f.Apart := by
  intro f hf
  simp only [fields, List.mem_append, List.mem_map, List.mem_singleton] at hf
  rcases hf with ((⟨h, -, rfl⟩ | ⟨g, -, rfl⟩) | ⟨f, -, rfl⟩) | rfl
  · trivial
  · rfl
  · exact functionField_apart _ _ _ _
  · exact functionField_apart _ _ _ _

/-- The text of a module is read as its fields. -/
theorem WellFormed.allOfText?_text (h : m.WellFormed) : Field.allOfText? m.text = some m.fields :=
  Field.allOfText?_eq m.fields_apart h.ofText?_text

end StackModule

end PLZero
