import PLZero.Instr.Generate
import PLZero.Program.Parse
import PLZero.Script.Emit
import PLZero.Script.LineMap
import PLZero.Symbol.Analysis
import Mathlib.Data.List.Induction
import Mathlib.Data.List.ReduceOption

/-! Lines of a script and the source lines noted behind them. A line map has the first script line for every source
line that is noted. So a script line is led back to the source line that was noted for the first time last, and not
always to the note that is closest to it. -/

namespace PLZero.LineMap

/-- The source lines that the lines of a script note. -/
def notes (script : String) : List (Option Nat) := (Text.lines script.toList).map noted

/-- The source lines noted by the first `n` lines of a script, in their order. -/
def notedWithin (script : String) (n : Nat) : List Nat := ((notes script).take n).reduceOption

/-- One more line adds an entry if it notes a source line that no line before it notes. -/
theorem collect_concat (found : List Entry) (n : Nat) (lines : List (List Char)) (line : List Char) :
    (collect found n (lines ++ [line]) = collect found n lines ∧
      ∀ s, noted line = some s → s ∈ (collect found n lines).map (·.source)) ∨
    ∃ s, noted line = some s ∧ s ∉ (collect found n lines).map (·.source) ∧
      collect found n (lines ++ [line]) = collect found n lines ++ [⟨s, n + lines.length⟩] := by
  induction lines generalizing found n with
  | nil =>
    cases hn : noted line with
    | none => simp [collect, hn]
    | some s =>
      by_cases hs : s ∈ found.map (·.source)
      · refine .inl ⟨?_, by simpa [collect] using hs⟩
        rw [List.mem_map] at hs
        simp [collect, hn, hs]
      · refine .inr ⟨s, rfl, by simpa [collect] using hs, ?_⟩
        rw [List.mem_map] at hs
        simp [collect, hn, hs]
  | cons l lines ih =>
    have hlength : n + (l :: lines).length = n + 1 + lines.length := by
      rw [List.length_cons]
      omega
    simp only [List.cons_append, collect, hlength]
    split
    · split
      · exact ih found (n + 1)
      · exact ih _ (n + 1)
    · exact ih found (n + 1)

theorem eraseDups_concat (l : List Nat) (s : Nat) :
    (l ++ [s]).eraseDups = if s ∈ l then l.eraseDups else l.eraseDups ++ [s] := by
  rw [List.eraseDups_append]
  by_cases hs : s ∈ l
  · simp [List.removeAll, hs]
  · have hkept : [s].removeAll l = [s] := by simp [List.removeAll, hs]
    rw [hkept, if_neg hs]
    rfl

/-- The source lines of the entries are the notes without repetitions. -/
theorem collect_source (lines : List (List Char)) :
    (collect [] 1 lines).map (·.source) = (lines.filterMap noted).eraseDups := by
  induction lines using List.reverseRecOn with
  | nil => rfl
  | append_singleton lines line ih =>
    rw [List.filterMap_append]
    rcases collect_concat [] 1 lines line with ⟨heq, hs⟩ | ⟨s, hn, hs, heq⟩
    · rw [heq, ih]
      cases hn : noted line with
      | none => simp [hn]
      | some s =>
        have hmem := hs s hn
        rw [ih, List.mem_eraseDups] at hmem
        rw [List.filterMap_cons_some hn, List.filterMap_nil, eraseDups_concat, if_pos hmem]
    · rw [ih, List.mem_eraseDups] at hs
      rw [heq, List.map_append, ih, List.filterMap_cons_some hn, List.filterMap_nil, eraseDups_concat, if_neg hs]
      rfl

theorem collect_script_le (lines : List (List Char)) : ∀ e ∈ collect [] 1 lines, e.script ≤ lines.length := by
  induction lines using List.reverseRecOn with
  | nil => simp [collect]
  | append_singleton lines line ih =>
    intro e he
    rw [List.length_append, List.length_singleton]
    rcases collect_concat [] 1 lines line with ⟨heq, -⟩ | ⟨s, -, -, heq⟩
    · rw [heq] at he
      have := ih e he
      omega
    · rw [heq, List.mem_append, List.mem_singleton] at he
      rcases he with he | rfl
      · have := ih e he
        omega
      · simp only
        omega

theorem collect_increasing (lines : List (List Char)) : (collect [] 1 lines).Pairwise (·.script < ·.script) := by
  induction lines using List.reverseRecOn with
  | nil => exact .nil
  | append_singleton lines line ih =>
    rcases collect_concat [] 1 lines line with ⟨heq, -⟩ | ⟨s, -, -, heq⟩
    · rw [heq]
      exact ih
    · rw [heq]
      refine List.pairwise_append.mpr ⟨ih, List.pairwise_singleton _ _, ?_⟩
      intro e he e' he'
      have := collect_script_le lines e he
      rw [List.mem_singleton.mp he']
      simp only
      omega

/-- The entries of the first `n` lines are those with numbers up to `n`. -/
theorem filter_collect (lines : List (List Char)) (n : Nat) :
    (collect [] 1 lines).filter (·.script ≤ n) = collect [] 1 (lines.take n) := by
  induction lines using List.reverseRecOn with
  | nil => simp [collect]
  | append_singleton lines line ih =>
    by_cases hn : n ≤ lines.length
    · rw [List.take_append_of_le_length hn, ← ih]
      rcases collect_concat [] 1 lines line with ⟨heq, -⟩ | ⟨s, -, -, heq⟩
      · rw [heq]
      · have hlate : ¬ 1 + lines.length ≤ n := by omega
        rw [heq, List.filter_append]
        simp [hlate]
    · have hall : (lines ++ [line]).length ≤ n := by
        rw [List.length_append, List.length_singleton]
        omega
      rw [List.take_of_length_le hall, List.filter_eq_self]
      intro e he
      have := collect_script_le _ e he
      simp only [decide_eq_true_eq]
      omega

/-- Where the keys increase, the greatest one up to a bound is the last one. -/
theorem last_eq_getLast? {key : Entry → Nat} {entries : List Entry} (h : entries.Pairwise (key · < key ·)) (n : Nat) :
    last key n entries = (entries.filter (key · ≤ n)).getLast? := by
  induction entries using List.reverseRecOn with
  | nil => rfl
  | append_singleton entries e ih =>
    obtain ⟨hinit, -, hlt⟩ := List.pairwise_append.mp h
    have hbefore := ih hinit
    unfold last at hbefore ⊢
    rw [List.foldl_append, hbefore, List.filter_append]
    by_cases he : key e ≤ n
    · have hgreater : ∀ b ∈ (entries.filter (key · ≤ n)).getLast?, key b < key e := by
        intro b hb
        have := List.mem_filter.mp (List.mem_of_mem_getLast? hb)
        exact hlt b this.1 e (by simp)
      cases hlast : (entries.filter (key · ≤ n)).getLast? with
      | none => simp [he]
      | some b => simp [he, hgreater b hlast]
    · simp [he]

/-- The source line of a script line is the one that was noted for the first time last. -/
theorem sourceLine_ofScript (script : String) (n : Nat) :
    (ofScript script).sourceLine n = (notedWithin script n).eraseDups.getLast? := by
  unfold sourceLine ofScript notedWithin notes
  rw [last_eq_getLast? (collect_increasing _), filter_collect, ← List.getLast?_map, collect_source, ← List.map_take,
    List.reduceOption, List.filterMap_map]
  rfl

/-- Behind its first occurrence, an element stays the last one without repetitions as long as nothing new comes. -/
theorem getLast?_eraseDups {before after : List Nat} {s : Nat} (hs : s ∉ before) :
    (before ++ s :: after).eraseDups.getLast? = some s ↔ ∀ s' ∈ after, s' ∈ before ∨ s' = s := by
  have hsplit : (before ++ s :: after).eraseDups =
      before.eraseDups ++ s :: (after.removeAll (before ++ [s])).eraseDups := by
    rw [List.append_cons, List.eraseDups_append, eraseDups_concat, if_neg hs, List.append_assoc]
    rfl
  have hmem (s' : Nat) : s' ∈ (after.removeAll (before ++ [s])).eraseDups ↔
      s' ∈ after ∧ ¬ (s' ∈ before ∨ s' = s) := by
    simp [List.mem_eraseDups, List.removeAll]
  rw [hsplit, List.getLast?_append, List.getLast?_cons, Option.some_or, Option.some.injEq]
  constructor
  · intro hlast s' hafter
    by_contra hnew
    have hne := List.ne_nil_of_mem ((hmem s').mpr ⟨hafter, hnew⟩)
    rw [List.getLast?_eq_some_getLast hne, Option.getD_some] at hlast
    exact ((hmem _).mp (List.getLast_mem hne)).2 (.inr hlast)
  · intro hold
    have hnil : (after.removeAll (before ++ [s])).eraseDups = [] := by
      rw [List.eq_nil_iff_forall_not_mem]
      intro s' h
      obtain ⟨hafter, hnew⟩ := (hmem s').mp h
      exact hnew (hold s' hafter)
    rw [hnil]
    rfl

/-- A script line is led back to a source line if and only if, up to the script line, that source line is noted and
every note behind its first one repeats an earlier note. -/
theorem sourceLine_iff_no_newer_note (script : String) (n : Nat) :
    (ofScript script).sourceLine n = (notedWithin script n).eraseDups.getLast? ∧
    ((ofScript script).sourceLine n = none ↔ notedWithin script n = []) ∧
    ∀ before s after, notedWithin script n = before ++ s :: after → s ∉ before →
      ((ofScript script).sourceLine n = some s ↔ ∀ s' ∈ after, s' ∈ before ∨ s' = s) := by
  rw [sourceLine_ofScript]
  refine ⟨rfl, ?_, ?_⟩
  · rw [List.getLast?_eq_none_iff, List.eq_nil_iff_forall_not_mem, List.eq_nil_iff_forall_not_mem]
    simp only [List.mem_eraseDups]
  · intro before s after hsplit hs
    rw [hsplit]
    exact getLast?_eraseDups hs

/-- A variable gets its first value in the entry function, behind the declarations of all lines: there the closest
note is that of line 1, and the map tells line 2. -/
theorem sourceLine_not_closest : ∃ p t script, Program.ofSource "var x = 5;\nvar y;" = .ok p ∧ p.analyze = .ok t ∧
    Script.ofCode p.code = .ok script ∧ (notedWithin script.text 5).getLast? = some 1 ∧
    (ofScript script.text).sourceLine 5 = some 2 :=
  ⟨_, _, _, rfl, rfl, rfl, by decide +kernel, by decide +kernel⟩

/-- The script line of a source line is the first one that notes it. -/
theorem scriptLine_ofScript (script : String) (source : Nat) :
    (ofScript script).scriptLine source = ((notes script).findIdx? (· == some source)).map (· + 1) := by
  unfold scriptLine ofScript notes
  generalize Text.lines script.toList = lines
  induction lines using List.reverseRecOn with
  | nil => rfl
  | append_singleton lines line ih =>
    rw [List.map_append, List.findIdx?_append, Option.map_or, ← ih]
    rcases collect_concat [] 1 lines line with ⟨heq, hs⟩ | ⟨s, hn, hs, heq⟩
    · rw [heq]
      cases hfind : (collect [] 1 lines).find? (·.source == source) with
      | some e => rfl
      | none =>
        have hother : noted line ≠ some source := by
          intro hn
          obtain ⟨e, he, hsource⟩ := List.mem_map.mp (hs source hn)
          simpa [hsource] using List.find?_eq_none.mp hfind e he
        simp [hother]
    · rw [heq, List.find?_append, Option.map_or]
      simp only [List.map_singleton, hn, List.length_map]
      by_cases hsource : s = source
      · simp [hsource, Nat.add_comm]
      · simp [hsource]

theorem mem_sources {script : String} {source : Nat} :
    source ∈ (ofScript script).entries.map (·.source) ↔ some source ∈ notes script := by
  unfold ofScript notes
  rw [collect_source, List.mem_eraseDups, List.mem_filterMap, List.mem_map]

/-- An entry is there because its script line notes its source line. -/
theorem noted_of_mem {script : String} {entry : Entry} (h : entry ∈ (ofScript script).entries) :
    (notes script)[entry.script - 1]? = some (some entry.source) := by
  unfold ofScript at h
  unfold notes
  generalize Text.lines script.toList = lines at h ⊢
  induction lines using List.reverseRecOn with
  | nil => simp [collect] at h
  | append_singleton lines line ih =>
    have hold (he : entry ∈ collect [] 1 lines) :
        ((lines ++ [line]).map noted)[entry.script - 1]? = some (some entry.source) := by
      obtain ⟨hlt, -⟩ := List.getElem?_eq_some_iff.mp (ih he)
      rw [List.map_append, List.getElem?_append_left hlt, ih he]
    rcases collect_concat [] 1 lines line with ⟨heq, -⟩ | ⟨s, hn, -, heq⟩
    · rw [heq] at h
      exact hold h
    · rw [heq, List.mem_append, List.mem_singleton] at h
      rcases h with h | rfl
      · exact hold h
      · simp [hn]

end PLZero.LineMap
