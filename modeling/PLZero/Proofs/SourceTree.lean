import PLZero.Files.Sources
import PLZero.Proofs.Utf8
import Mathlib.Data.List.Lex
import Mathlib.Data.List.Nodup

/-! What is loaded from a directory tree whose files can all be opened. Every file with the
extension of sources, at whatever names below the directory, is listed once, and nothing else is.
The order is that of the lists of names: a directory is listed where its own name puts it, so all
that stands in `a/` comes before `a.pl0`, although a slash comes after a dot. -/

namespace PLZero

namespace Entry

mutual

/-- A walk comes to the entry itself and then to all that is in it: depth first, and along the
entries of a directory in the order of the bytes of their names, which differ. -/
inductive Visits : Entry → List (List FileName) → Prop
  | file (contents : ByteArray) : Visits (.file contents) [[]]
  | dir {entries sorted : List (FileName × Entry)} {walk : List (List FileName)} :
    sorted.Perm entries → sorted.Pairwise (·.1 < ·.1) → VisitsEach sorted walk →
    Visits (.dir entries) ([] :: walk)

inductive VisitsEach : List (FileName × Entry) → List (List FileName) → Prop
  | nil : VisitsEach [] []
  | cons {name : FileName} {e : Entry} {rest : List (FileName × Entry)}
    {here there : List (List FileName)} : Visits e here → VisitsEach rest there →
    VisitsEach ((name, e) :: rest) (here.map (name :: ·) ++ there)

end

theorem lookup_eq_some_iff_mem {entries : List (FileName × Entry)}
    (hnodup : (entries.map (·.1)).Nodup) {name : FileName} {e : Entry} :
    entries.lookup name = some e ↔ (name, e) ∈ entries := by
  induction entries with
  | nil => simp
  | cons p rest ih =>
    rw [List.map_cons, List.nodup_cons] at hnodup
    rw [List.lookup_cons]
    by_cases hname : name = p.1
    · subst hname
      have hrest : (p.1, e) ∉ rest := fun hmem => hnodup.1 (List.mem_map.mpr ⟨_, hmem, rfl⟩)
      simp [hrest, Prod.ext_iff, eq_comm]
    · have hne : (name, e) ≠ p := fun heq => hname (congrArg Prod.fst heq)
      rw [beq_false_of_ne hname, List.mem_cons, or_iff_right hne]
      exact ih hnodup.2

/-- Below a directory stand its entries and what is below them. -/
theorem get?_dir {entries sorted : List (FileName × Entry)} (hperm : sorted.Perm entries)
    (hsorted : sorted.Pairwise (·.1 < ·.1)) {names : List FileName} {e : Entry} :
    get? names (.dir entries) = some e ↔ names = [] ∧ e = .dir entries ∨
      ∃ p ∈ sorted, ∃ rest, names = p.1 :: rest ∧ p.2.get? rest = some e := by
  have hdistinct : (sorted.map (·.1)).Nodup := by
    refine List.pairwise_map.mpr (hsorted.imp ?_)
    intro p q hlt heq
    exact List.lt_irrefl _ (heq ▸ hlt)
  have hnodup := ((hperm.map (·.1)).nodup_iff).mp hdistinct
  cases names with
  | nil => simp [get?, eq_comm]
  | cons name rest =>
    rw [get?, child?, Option.bind_eq_some_iff]
    simp only [lookup_eq_some_iff_mem hnodup, ← hperm.mem_iff]
    constructor
    · rintro ⟨e', hmem, hget⟩
      exact .inr ⟨_, hmem, rest, rfl, hget⟩
    · rintro (⟨hnil, -⟩ | ⟨p, hmem, rest', heq, hget⟩)
      · cases hnil
      · cases heq
        exact ⟨p.2, hmem, hget⟩

mutual

/-- A walk comes to all that is there. -/
theorem Visits.mem_iff {e : Entry} {walk : List (List FileName)} {names : List FileName} :
    Visits e walk → (names ∈ walk ↔ ∃ e', e.get? names = some e')
  | .file contents => by
    cases names <;> simp [get?, child?]
  | .dir hperm hsorted heach => by
    rw [List.mem_cons, heach.mem_iff]
    simp only [get?_dir hperm hsorted]
    constructor
    · rintro (hnil | ⟨p, hp, rest, heq, e', hget⟩)
      · exact ⟨_, .inl ⟨hnil, rfl⟩⟩
      · exact ⟨e', .inr ⟨p, hp, rest, heq, hget⟩⟩
    · rintro ⟨e', ⟨hnil, -⟩ | ⟨p, hp, rest, heq, hget⟩⟩
      · exact .inl hnil
      · exact .inr ⟨p, hp, rest, heq, e', hget⟩

theorem VisitsEach.mem_iff {entries : List (FileName × Entry)} {walk : List (List FileName)}
    {names : List FileName} : VisitsEach entries walk →
    (names ∈ walk ↔ ∃ p ∈ entries, ∃ rest, names = p.1 :: rest ∧ ∃ e', p.2.get? rest = some e')
  | .nil => by simp
  | .cons hhere hthere => by
    rw [List.mem_append, List.mem_map, hthere.mem_iff, List.exists_mem_cons_iff]
    simp only [hhere.mem_iff, eq_comm (b := names), and_comm]

end

mutual

/-- A walk goes upwards in the order of the names. -/
theorem Visits.pairwise {e : Entry} {walk : List (List FileName)} :
    Visits e walk → walk.Pairwise (· < ·)
  | .file contents => List.pairwise_singleton _ _
  | .dir hperm hsorted heach => by
    refine List.pairwise_cons.mpr ⟨fun names hnames => ?_, heach.pairwise hsorted⟩
    obtain ⟨p, -, rest, rfl, -⟩ := heach.mem_iff.mp hnames
    exact List.nil_lt_cons _ _

theorem VisitsEach.pairwise {entries : List (FileName × Entry)} {walk : List (List FileName)}
    (hsorted : entries.Pairwise (·.1 < ·.1)) : VisitsEach entries walk → walk.Pairwise (· < ·)
  | .nil => .nil
  | .cons hhere hthere => by
    rw [List.pairwise_cons] at hsorted
    refine List.pairwise_append.mpr ⟨?_, hthere.pairwise hsorted.2, ?_⟩
    · exact List.pairwise_map.mpr
        (hhere.pairwise.imp fun hlt => List.cons_lt_cons_iff.mpr (.inr ⟨rfl, hlt⟩))
    · -- the names of the entries differ, so the first name decides
      intro names hnames names' hnames'
      obtain ⟨rest, -, rfl⟩ := List.mem_map.mp hnames
      obtain ⟨p, hp, rest', rfl, -⟩ := hthere.mem_iff.mp hnames'
      exact List.cons_lt_cons_iff.mpr (.inl (hsorted.1 p hp))

end

end Entry

/-- The answers are those about the tree: the walk is one along it, and every file can be read. -/
structure FileAccess.Serves {ε : Type} (fs : FileAccess ε) (e : Entry) : Prop where
  isDir : fs.isDir = e.isDir
  walk : ∃ walk, e.Visits walk ∧ fs.walk = walk.map .ok
  isFile : ∀ names, fs.isFile names = true ↔ ∃ contents, e.get? names = some (.file contents)
  read : ∀ names contents, e.get? names = some (.file contents) → fs.read names = .ok contents

namespace SourceFile

variable {ε : Type} {fs : FileAccess ε} {names : List FileName} {walk : List (List FileName)}

/-- A file that has the extension of sources stands at the names. -/
def IsSourceAt (e : Entry) (names : List FileName) (contents : ByteArray) : Prop :=
  e.get? names = some (.file contents) ∧
    ∃ stem ≠ [], names.getLast? = some (stem ++ Text.bytes ".pl0")

theorem bytes_extension : Text.bytes ".pl0" = dot :: sourceExtension := by decide +kernel

theorem extension?_eq_some_iff {name after : FileName} (hafter : dot ∉ after) :
    extension? name = some after ↔ ∃ stem ≠ [], name = stem ++ dot :: after := by
  constructor
  · intro h
    rw [extension?, Option.ite_none_left_eq_some, Option.some.injEq] at h
    obtain ⟨hlen, rfl⟩ := h
    have hname := List.takeWhile_append_dropWhile (p := (· != dot)) (l := name.reverse)
    have hhead := List.head?_dropWhile_not (· != dot) name.reverse
    obtain ⟨b, bs, hdrop⟩ := List.exists_cons_of_ne_nil
      (fun hnil : name.reverse.dropWhile (· != dot) = [] => hlen (by simp [hnil]))
    rw [hdrop] at hname hhead hlen
    obtain rfl : b = dot := by simpa using hhead
    refine ⟨bs.reverse, by rintro heq; simp_all, ?_⟩
    have hback : (bs.reverse ++ dot :: (name.reverse.takeWhile (· != dot)).reverse).reverse =
        name.reverse := by simpa using hname
    exact (List.reverse_inj.mp hback).symm
  · rintro ⟨stem, hstem, rfl⟩
    have htake : ∀ b ∈ after.reverse, (b != dot) = true := by
      intro b hb
      simp only [bne_iff_ne]
      rintro rfl
      exact hafter (List.mem_reverse.mp hb)
    have hpos := List.length_pos_iff.mpr hstem
    simp [extension?, List.takeWhile_append_of_pos htake, List.dropWhile_append_of_pos htake]
    omega

theorem isSource_iff : isSource names = true ↔
    ∃ stem ≠ [], names.getLast? = some (stem ++ Text.bytes ".pl0") := by
  have hdot : dot ∉ sourceExtension := by decide +kernel
  rw [isSource, bytes_extension, Option.any_eq_true]
  simp only [beq_iff_eq, extension?_eq_some_iff hdot]
  constructor
  · rintro ⟨_, hlast, stem, hstem, rfl⟩
    exact ⟨stem, hstem, hlast⟩
  · rintro ⟨stem, hstem, hlast⟩
    exact ⟨_, hlast, stem, hstem, rfl⟩

theorem readText_of_read {contents : ByteArray}
    (hread : fs.read names = .ok contents) {text : String} :
    readText fs names = .ok text ↔ text.toUTF8 = contents := by
  rw [readText, hread]
  by_cases hvalid : contents.IsValidUTF8
  · have htext : String.fromUTF8? contents = some (String.fromUTF8 contents hvalid) :=
      dif_pos hvalid
    simp only [htext, Except.ok.injEq]
    constructor
    · rintro rfl
      rfl
    · rintro rfl
      exact String.toByteArray_inj.mp rfl
  · have htext : String.fromUTF8? contents = none := dif_neg hvalid
    simp only [htext, reduceCtorEq, false_iff]
    rintro rfl
    exact hvalid text.isValidUTF8

/-- When every source file is read as a text, the files are listed in the order of the walk. -/
theorem collect_of_text (h : ∀ names ∈ walk,
    fs.isFile names = true → isSource names = true → ∃ text, readText fs names = .ok text) :
    ∃ files, collect fs walk = .ok files ∧
      files.map (·.names) = walk.filter (fun names => fs.isFile names && isSource names) ∧
      ∀ f ∈ files, readText fs f.names = .ok f.contents := by
  induction walk with
  | nil => exact ⟨[], rfl, rfl, by simp⟩
  | cons names walk ih =>
    rw [List.forall_mem_cons] at h
    obtain ⟨files, hfiles, hnames, htexts⟩ := ih h.2
    rw [collect, List.filter_cons]
    split_ifs with hsource
    · rw [Bool.and_eq_true] at hsource
      obtain ⟨text, htext⟩ := h.1 hsource.1 hsource.2
      refine ⟨⟨names, text⟩ :: files, by rw [htext, hfiles], by rw [List.map_cons, hnames], ?_⟩
      exact List.forall_mem_cons.mpr ⟨htext, htexts⟩
    · exact ⟨files, hfiles, hnames, htexts⟩

/-- A source file that is not read as a text stops the search. -/
theorem collect_of_not_text
    (hmem : names ∈ walk) (hsource : (fs.isFile names && isSource names) = true)
    (htext : ∀ text, readText fs names ≠ .ok text) : ∃ e, collect fs walk = .error e := by
  induction walk with
  | nil => cases hmem
  | cons names' walk ih =>
    rw [collect]
    obtain rfl | hmem := List.mem_cons.mp hmem
    · rw [if_pos hsource]
      cases hread : readText fs names with
      | error e => exact ⟨e, rfl⟩
      | ok text => exact absurd hread (htext text)
    · obtain ⟨e, he⟩ := ih hmem
      split_ifs
      · cases hread : readText fs names' with
        | error e' => exact ⟨e', rfl⟩
        | ok text => exact ⟨e, by rw [he]⟩
      · exact ⟨e, he⟩

section Below

variable {entries : List (FileName × Entry)} (hfs : fs.Serves (.dir entries)) (root : String)
include hfs

theorem isSourceAt_iff {contents : ByteArray}
    (hget : Entry.get? names (.dir entries) = some (.file contents)) :
    IsSourceAt (.dir entries) names contents ↔ (fs.isFile names && isSource names) = true := by
  have hfile : fs.isFile names = true := (hfs.isFile names).mpr ⟨contents, hget⟩
  rw [IsSourceAt, ← isSource_iff, hfile, Bool.true_and]
  exact and_iff_right hget

theorem below_eq : ∃ walk, Entry.Visits (.dir entries) walk ∧
    (∀ files, collect fs walk = .ok files → below fs root = .ok files) ∧
    (∀ e, collect fs walk = .error e → below fs root = .error (.unreadable e)) := by
  obtain ⟨walk, hvisits, hwalk⟩ := hfs.walk
  have hkept : (walk.map (Except.ok : _ → Except ε _)).filterMap Except.toOption = walk := by
    rw [List.filterMap_map]
    exact List.filterMap_some
  refine ⟨walk, hvisits, fun files hfiles => ?_, fun e he => ?_⟩
  · rw [below, hfs.isDir, Entry.isDir, if_pos rfl, hwalk, hkept, hfiles]
  · rw [below, hfs.isDir, Entry.isDir, if_pos rfl, hwalk, hkept, he]

theorem below_of_not_text {contents : ByteArray}
    (hsource : IsSourceAt (.dir entries) names contents) (htext : ¬contents.IsValidUTF8) :
    ∃ e, below fs root = .error (.unreadable e) := by
  obtain ⟨walk, hvisits, -, herror⟩ := below_eq hfs root
  have hread := hfs.read names contents hsource.1
  have hnone : ∀ text, readText fs names ≠ .ok text := by
    intro text h
    obtain rfl := (readText_of_read hread).mp h
    exact htext text.isValidUTF8
  obtain ⟨e, he⟩ := collect_of_not_text (hvisits.mem_iff.mpr ⟨_, hsource.1⟩)
    ((isSourceAt_iff hfs hsource.1).mp hsource) hnone
  exact ⟨e, herror e he⟩

theorem below_of_text
    (htext : ∀ names contents, IsSourceAt (.dir entries) names contents → contents.IsValidUTF8) :
    ∃ files, below fs root = .ok files ∧ files.Pairwise (·.names < ·.names) ∧
      ∀ f : SourceFile, f ∈ files ↔ IsSourceAt (.dir entries) f.names f.contents.toUTF8 := by
  obtain ⟨walk, hvisits, hok, -⟩ := below_eq hfs root
  obtain ⟨files, hfiles, hnames, htexts⟩ : ∃ files, collect fs walk = .ok files ∧ _ := by
    refine collect_of_text fun names _ hfile hsource => ?_
    obtain ⟨contents, hget⟩ := (hfs.isFile names).mp hfile
    have hvalid := htext names contents
      ((isSourceAt_iff hfs hget).mpr (by rw [hfile, hsource]; rfl))
    exact ⟨String.fromUTF8 contents hvalid, (readText_of_read (hfs.read _ _ hget)).mpr rfl⟩
  refine ⟨files, hok files hfiles, ?_, fun f => ⟨fun hf => ?_, fun hsource => ?_⟩⟩
  · have hsorted := hvisits.pairwise.filter fun names => fs.isFile names && isSource names
    rw [← hnames] at hsorted
    exact List.pairwise_map.mp hsorted
  · have hmem : f.names ∈ files.map (·.names) := List.mem_map_of_mem hf
    rw [hnames, List.mem_filter] at hmem
    obtain ⟨contents, hget⟩ :=
      (hfs.isFile f.names).mp ((Bool.and_eq_true _ _).mp hmem.2).1
    have hcontents := (readText_of_read (hfs.read _ _ hget)).mp (htexts f hf)
    rw [hcontents]
    exact (isSourceAt_iff hfs hget).mpr hmem.2
  · have hmem : f.names ∈ files.map (·.names) := by
      rw [hnames, List.mem_filter]
      exact ⟨hvisits.mem_iff.mpr ⟨_, hsource.1⟩, (isSourceAt_iff hfs hsource.1).mp hsource⟩
    obtain ⟨g, hg, heq⟩ := List.mem_map.mp hmem
    -- one file stands at the names, so what was read there is the text of the file
    have hread := hfs.read _ _ hsource.1
    rw [← heq] at hread
    have hcontents := String.toByteArray_inj.mp ((readText_of_read hread).mp (htexts g hg))
    have hsame : g = f := by
      cases g
      cases f
      cases heq
      cases hcontents
      rfl
    exact hsame ▸ hg

end Below

/-- Loading a directory fails to read exactly when some source file in it is no text. Otherwise it
gives every source file once and nothing else, in the order of their names. -/
theorem below_lists_sources {entries : List (FileName × Entry)}
    (hfs : fs.Serves (.dir entries)) (root : String) :
    ((∃ e, below fs root = .error (.unreadable e)) ↔
      ∃ names contents, IsSourceAt (.dir entries) names contents ∧ ¬contents.IsValidUTF8) ∧
    ((∀ names contents, IsSourceAt (.dir entries) names contents → contents.IsValidUTF8) →
      ∃ files, below fs root = .ok files ∧ files.Pairwise (·.names < ·.names) ∧
        ∀ f : SourceFile, f ∈ files ↔ IsSourceAt (.dir entries) f.names f.contents.toUTF8) := by
  refine ⟨⟨fun ⟨e, he⟩ => ?_, ?_⟩, below_of_text hfs root⟩
  · by_contra hnone
    obtain ⟨files, hfiles, -⟩ := below_of_text hfs root fun names contents hsource =>
      by_contra fun htext => hnone ⟨names, contents, hsource, htext⟩
    rw [he] at hfiles
    cases hfiles
  · rintro ⟨names, contents, hsource, htext⟩
    exact below_of_not_text hfs root hsource htext

/-- The answers of a disk that holds just the tree. -/
def answers (e : Entry) (walk : List (List FileName)) : FileAccess Empty where
  isDir := e.isDir
  walk := walk.map .ok
  isFile names := (e.get? names).any (!·.isDir)
  read names := match e.get? names with
    | some (.file contents) => .ok contents
    | _ => .ok .empty

theorem serves_answers {e : Entry} (h : e.Visits walk) :
    (answers e walk).Serves e where
  isDir := rfl
  walk := ⟨walk, h, rfl⟩
  isFile names := by
    rw [answers]
    obtain hnone | ⟨_ | _, hsome⟩ := (e.get? names).eq_none_or_eq_some
    · simp [hnone]
    · simp [hsome, Entry.isDir]
    · simp [hsome, Entry.isDir]
  read names contents hget := by simp only [answers, hget]

/-- A directory `a` and a file `a.pl0`, a directory that is named like a source file, a file whose
name is only an extension, and one whose name is no text. -/
def lessons : List (FileName × Entry) :=
  [(255 :: Text.bytes ".pl0", .file "write 4;".toUTF8),
   (Text.bytes "d.pl0", .dir [(Text.bytes "x.pl0", .file "write 3;".toUTF8)]),
   (Text.bytes "a.pl0", .file "write 2;".toUTF8),
   (Text.bytes "a", .dir [(Text.bytes "b.pl0", .file "write 1;".toUTF8),
     (Text.bytes ".pl0", .file ⟨#[255]⟩)])]

def lessonsWalk : List (List FileName) :=
  [[], [Text.bytes "a"], [Text.bytes "a", Text.bytes ".pl0"], [Text.bytes "a", Text.bytes "b.pl0"],
   [Text.bytes "a.pl0"], [Text.bytes "d.pl0"], [Text.bytes "d.pl0", Text.bytes "x.pl0"],
   [255 :: Text.bytes ".pl0"]]

theorem visits_lessons : (Entry.dir lessons).Visits lessonsWalk := by
  have ha : (Entry.dir [(Text.bytes "b.pl0", .file "write 1;".toUTF8),
      (Text.bytes ".pl0", .file ⟨#[255]⟩)]).Visits
      [[], [Text.bytes ".pl0"], [Text.bytes "b.pl0"]] :=
    .dir (List.Perm.swap _ _ _) (by decide +kernel) (.cons (.file _) (.cons (.file _) .nil))
  have hd : (Entry.dir [(Text.bytes "x.pl0", .file "write 3;".toUTF8)]).Visits
      [[], [Text.bytes "x.pl0"]] :=
    .dir (List.Perm.refl _) (by decide +kernel) (.cons (.file _) .nil)
  exact .dir (List.reverse_perm lessons) (by decide +kernel)
    (.cons ha (.cons (.file _) (.cons hd (.cons (.file _) .nil))))

theorem text_of_lessons {contents : ByteArray}
    (h : IsSourceAt (.dir lessons) names contents) : contents.IsValidUTF8 := by
  have hmem := visits_lessons.mem_iff.mpr ⟨_, h.1⟩
  obtain ⟨hget, stem, hstem, hlast⟩ := h
  simp only [lessonsWalk, List.mem_cons, List.not_mem_nil, or_false] at hmem
  obtain rfl | rfl | rfl | rfl | rfl | rfl | rfl | rfl := hmem
  · cases hget
  · cases hget
  · -- the name is its extension only
    have hempty := List.self_eq_append_left.mp (Option.some.inj hlast)
    exact absurd hempty hstem
  all_goals cases hget
  all_goals exact String.isValidUTF8 _

theorem below_lists_sources_lessons :
    ∃ files, below (answers (.dir lessons) lessonsWalk) "r" = .ok files ∧
      files.Pairwise (·.names < ·.names) ∧
      ⟨[Text.bytes "a", Text.bytes "b.pl0"], "write 1;"⟩ ∈ files ∧
      ⟨[Text.bytes "a.pl0"], "write 2;"⟩ ∈ files ∧
      ⟨[Text.bytes "d.pl0", Text.bytes "x.pl0"], "write 3;"⟩ ∈ files ∧
      ⟨[255 :: Text.bytes ".pl0"], "write 4;"⟩ ∈ files := by
  obtain ⟨-, hfiles⟩ := below_lists_sources (serves_answers visits_lessons) "r"
  obtain ⟨files, hbelow, hsorted, hmem⟩ := hfiles fun names contents => text_of_lessons
  refine ⟨files, hbelow, hsorted, (hmem _).mpr ?_, (hmem _).mpr ?_, (hmem _).mpr ?_,
    (hmem _).mpr ?_⟩
  · exact ⟨rfl, Text.bytes "b", by decide, by decide +kernel⟩
  · exact ⟨rfl, Text.bytes "a", by decide, by decide +kernel⟩
  · exact ⟨rfl, Text.bytes "x", by decide, by decide +kernel⟩
  · exact ⟨rfl, [255], by decide, by decide +kernel⟩

end SourceFile

end PLZero
