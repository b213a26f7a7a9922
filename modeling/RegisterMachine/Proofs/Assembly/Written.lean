import Mathlib
import RegisterMachine.Proofs.Assembly.Row

namespace RegisterMachine

namespace Text

theorem linesFrom_append {current line rest : List Char} (h : '\n' ∉ line) :
    linesFrom current (line ++ rest) = linesFrom (current ++ line) rest := by
  induction line generalizing current with
  | nil => rw [List.nil_append, List.append_nil]
  | cons c line ih =>
    rw [List.mem_cons, not_or] at h
    obtain ⟨hc, hline⟩ := h
    rw [List.cons_append, linesFrom, if_neg (Ne.symm hc), ih hline, List.append_assoc]
    rfl

theorem chomp_eq_self {line : List Char} (h : '\r' ∉ line) : chomp line = line := by
  rw [chomp, if_neg]
  exact fun hlast => h (List.mem_of_getLast? hlast)

/-- Lines that are put together are taken apart again. -/
theorem lines_intercalate {ls : List (List Char)} (h : ∀ l ∈ ls, l ≠ [] ∧ '\n' ∉ l ∧ '\r' ∉ l) :
    lines (['\n'].intercalate ls) = ls := by
  rw [lines]
  induction ls with
  | nil => rfl
  | cons l ls ih =>
    obtain ⟨⟨hne, hfeed, hreturn⟩, hls⟩ := List.forall_mem_cons.mp h
    cases ls with
    | nil =>
      have hempty : l.isEmpty = false := List.isEmpty_eq_false_iff.mpr hne
      rw [List.intercalate_singleton, ← List.append_nil l, linesFrom_append hfeed, List.nil_append,
        List.append_nil, linesFrom, hempty]
      rfl
    | cons l' ls =>
      rw [List.intercalate_cons_cons, List.append_assoc, linesFrom_append hfeed, List.nil_append,
        List.singleton_append, linesFrom, if_pos rfl, chomp_eq_self hreturn, ih hls]

theorem trim_eq_self {s : List Char} (hfirst : ∀ c, s.head? = some c → isBlank c = false)
    (hlast : ∀ c, s.getLast? = some c → isBlank c = false) : trim s = s := by
  have hkeep : ∀ t : List Char, (∀ c, t.head? = some c → isBlank c = false) →
      t.dropWhile isBlank = t := by
    intro t ht
    cases t with
    | nil => rfl
    | cons c t => rw [List.dropWhile_cons, ht c rfl]; rfl
  have hreverse : ∀ c, s.reverse.head? = some c → isBlank c = false := by
    intro c hc
    rw [List.head?_reverse] at hc
    exact hlast c hc
  rw [trim, hkeep s hfirst, trimRight, hkeep _ hreverse, List.reverse_reverse]

end Text

namespace Assembly

/-- A character that is part of a token wherever it stands. -/
def isPlain (c : Char) : Bool :=
  !(Text.isBlank c || isSeparator c || c = '"' || c = ';')

/-- A token of plain characters. -/
def IsWord (token : List Char) : Prop :=
  token ≠ [] ∧ ∀ c ∈ token, isPlain c

instance (token : List Char) : Decidable (IsWord token) :=
  decidable_of_iff (token ≠ [] ∧ token.all isPlain = true) (by rw [List.all_eq_true, IsWord])

theorem isPlain_iff {c : Char} : isPlain c ↔
    Text.isBlank c = false ∧ isSeparator c = false ∧ c ≠ '"' ∧ c ≠ ';' := by
  simp [isPlain, and_assoc]

theorem uncommented_eq_self {s : List Char} (h : ∀ c ∈ s, c ≠ '"' ∧ c ≠ ';') :
    uncommented s = s := by
  rw [uncommented]
  induction s with
  | nil => rfl
  | cons c s ih =>
    obtain ⟨⟨hquote, hcomment⟩, hs⟩ := List.forall_mem_cons.mp h
    rw [uncommentedFrom, if_neg hquote, if_neg (fun hc => hcomment hc.1), ih hs]

theorem tokensFrom_append {current token rest : List Char} (h : ∀ c ∈ token, isPlain c) :
    tokensFrom current false (token ++ rest) = tokensFrom (current ++ token) false rest := by
  induction token generalizing current with
  | nil => rw [List.nil_append, List.append_nil]
  | cons c token ih =>
    obtain ⟨hc, htoken⟩ := List.forall_mem_cons.mp h
    obtain ⟨-, hseparator, hquote, -⟩ := isPlain_iff.mp hc
    have hkeep : ¬ (isSeparator c = true ∧ false = false) := by simp [hseparator]
    rw [List.cons_append, tokensFrom, if_neg hquote, if_neg hkeep, ih htoken, List.append_assoc]
    rfl

section

variable {word : List Char} {words : List (List Char)}

/-- The words of a line with single blanks between them are its tokens. -/
theorem tokens?_intercalate (h : ∀ w ∈ word :: words, IsWord w) :
    tokens? ([' '].intercalate (word :: words)) = some ((word :: words).map String.ofList) := by
  rw [tokens?]
  induction words generalizing word with
  | nil =>
    obtain ⟨hne, hplain⟩ := h word List.mem_cons_self
    rw [List.intercalate_singleton, ← List.append_nil word, tokensFrom_append hplain, tokensFrom,
      List.nil_append, List.append_nil, consToken, if_neg hne]
    rfl
  | cons next words ih =>
    obtain ⟨⟨hne, hplain⟩, hwords⟩ := List.forall_mem_cons.mp h
    have hsplit : [' '].intercalate (word :: next :: words) =
        word ++ ' ' :: [' '].intercalate (next :: words) := by
      rw [List.intercalate_cons_cons, List.append_assoc, List.singleton_append]
    rw [hsplit, tokensFrom_append hplain, List.nil_append, tokensFrom, if_neg (by decide),
      if_pos ⟨rfl, rfl⟩, ih hwords, Option.map_eq_map, Option.map_some, consToken, if_neg hne]
    rfl

theorem mem_intercalate (h : ∀ w ∈ words, IsWord w) :
    ∀ c ∈ [' '].intercalate words, c = ' ' ∨ isPlain c := by
  intro c hc
  induction words with
  | nil => cases hc
  | cons word words ih =>
    obtain ⟨⟨-, hplain⟩, hwords⟩ := List.forall_mem_cons.mp h
    cases words with
    | nil =>
      rw [List.intercalate_singleton] at hc
      exact .inr (hplain c hc)
    | cons next words =>
      rw [List.intercalate_cons_cons, List.mem_append, List.mem_append, List.mem_singleton] at hc
      rcases hc with (hc | hc) | hc
      · exact .inr (hplain c hc)
      · exact .inl hc
      · exact ih hwords hc

theorem head?_intercalate (h : ∀ w ∈ word :: words, IsWord w) :
    ([' '].intercalate (word :: words)).head? = word.head? := by
  have hne := (h word List.mem_cons_self).1
  cases words with
  | nil => rw [List.intercalate_singleton]
  | cons next words =>
    rw [List.intercalate_cons_cons, List.append_assoc, List.head?_append_of_ne_nil _ hne]

theorem getLast?_intercalate (h : ∀ w ∈ word :: words, IsWord w) :
    ∀ c, ([' '].intercalate (word :: words)).getLast? = some c → isPlain c := by
  induction words generalizing word with
  | nil =>
    intro c hc
    rw [List.intercalate_singleton] at hc
    exact (h word List.mem_cons_self).2 c (List.mem_of_getLast? hc)
  | cons next words ih =>
    intro c hc
    have hwords := (List.forall_mem_cons.mp h).2
    have hne : [' '].intercalate (next :: words) ≠ [] := by
      intro hnil
      have htokens := tokens?_intercalate hwords
      rw [hnil] at htokens
      cases htokens
    rw [List.intercalate_cons_cons, List.getLast?_append_of_ne_nil _ hne] at hc
    exact ih hwords c hc

theorem strip_intercalate (h : ∀ w ∈ word :: words, IsWord w) :
    strip ([' '].intercalate (word :: words)) = [' '].intercalate (word :: words) := by
  have hmem := mem_intercalate h
  rw [strip, uncommented_eq_self, Text.trim_eq_self]
  · intro c hc
    rw [head?_intercalate h] at hc
    have hplain := (h word List.mem_cons_self).2 c (List.mem_of_head? hc)
    exact (isPlain_iff.mp hplain).1
  · intro c hc
    exact (isPlain_iff.mp (getLast?_intercalate h c hc)).1
  · intro c hc
    rcases hmem c hc with rfl | hplain
    · decide
    · exact (isPlain_iff.mp hplain).2.2

end

namespace Macro

theorem invoked?_eq_none {text : List Char} (h : text.head? ≠ some '#') : invoked? text = none := by
  unfold invoked?
  split
  · exact absurd rfl h
  · rfl

theorem foldl_step_unmarked {ls front : List Line} (h : ∀ l ∈ ls, l.text.head? ≠ some '#') :
    ls.foldl Collected.step { rest := front } = { rest := front ++ ls } := by
  induction ls generalizing front with
  | nil => rw [List.append_nil]; rfl
  | cons l ls ih =>
    obtain ⟨hl, hls⟩ := List.forall_mem_cons.mp h
    have hkeyword : ¬ keyword.toList.isPrefixOf l.text = true := by
      intro hprefix
      obtain ⟨rest, hrest⟩ := List.isPrefixOf_iff_prefix.mp hprefix
      exact hl (by rw [← hrest]; rfl)
    have hstep : Collected.step { rest := front } l = { rest := front ++ [l] } := by
      rw [Collected.step]
      exact if_neg hkeyword
    rw [List.foldl_cons, hstep, ih hls, List.append_assoc]
    rfl

/-- Lines without a macro in them are left as they are. -/
theorem expandLines_unmarked {ls : List Line} (h : ∀ l ∈ ls, l.text.head? ≠ some '#') :
    (expandLines ls).lines = ls ∧ (expandLines ls).errors = [] := by
  have hcollect : collect ls = { rest := ls } := by
    rw [collect, foldl_step_unmarked h]
    rfl
  have hexpand : ∀ l ∈ ls, expandLine [] l = .ok [l] := by
    intro l hl
    rw [expandLine, invoked?_eq_none (h l hl)]
  have hresults : ls.map (expandLine []) = ls.map fun l => .ok [l] := List.map_congr_left hexpand
  unfold expandLines
  simp only [hcollect, hresults, if_pos, List.flatMap_map, List.filterMap_map]
  constructor
  · exact List.flatMap_singleton' ls
  · exact List.filterMap_eq_nil_iff.mpr fun l _ => rfl

end Macro

/-- A row whose tokens are words and that uses no macro. -/
def Writable (row : List String) : Prop :=
  (∀ token ∈ row, IsWord token.toList) ∧
    ∃ head arguments, row = head :: arguments ∧ head.toList.head? ≠ some '#'

/-- The line of a row. -/
def spaced (row : List String) : List Char :=
  [' '].intercalate (row.map String.toList)

namespace Writable

variable {row : List String}

theorem exists_words (h : Writable row) : ∃ word words, row.map String.toList = word :: words ∧
    (∀ w ∈ word :: words, IsWord w) ∧ word.head? ≠ some '#' := by
  obtain ⟨htokens, head, arguments, rfl, hhead⟩ := h
  refine ⟨head.toList, arguments.map String.toList, rfl, ?_, hhead⟩
  rw [← List.map_cons, List.forall_mem_map]
  exact htokens

theorem tokens?_spaced (h : Writable row) : tokens? (spaced row) = some row := by
  obtain ⟨word, words, hrow, hwords, -⟩ := h.exists_words
  have hback : (row.map String.toList).map String.ofList = row := by
    rw [List.map_map]
    exact List.map_id'' (fun token => String.ofList_toList) row
  rw [spaced, hrow, tokens?_intercalate hwords, ← hrow, hback]

theorem strip_spaced (h : Writable row) : strip (spaced row) = spaced row := by
  obtain ⟨word, words, hrow, hwords, -⟩ := h.exists_words
  rw [spaced, hrow, strip_intercalate hwords]

theorem head?_spaced (h : Writable row) : (spaced row).head? ≠ some '#' ∧ spaced row ≠ [] := by
  obtain ⟨word, words, hrow, hwords, hmark⟩ := h.exists_words
  have hhead : (spaced row).head? = word.head? := by rw [spaced, hrow, head?_intercalate hwords]
  have hword := (hwords word List.mem_cons_self).1
  rw [hhead]
  refine ⟨hmark, fun hnil => ?_⟩
  rw [hnil] at hhead
  exact hword (List.head?_eq_none_iff.mp hhead.symm)

theorem not_mem_spaced (h : Writable row) {c : Char} (hblank : Text.isBlank c = true)
    (hc : c ≠ ' ') : c ∉ spaced row := by
  obtain ⟨word, words, hrow, hwords, -⟩ := h.exists_words
  intro hmem
  rw [spaced, hrow] at hmem
  rcases mem_intercalate hwords c hmem with rfl | hplain
  · exact hc rfl
  · rw [(isPlain_iff.mp hplain).1] at hblank
    cases hblank

end Writable

/-- The text of some rows. -/
def written (rows : List (List String)) : String :=
  "\n".intercalate (rows.map fun row => " ".intercalate row)

section

variable {rows : List (List String)}

theorem lines_written (h : ∀ row ∈ rows, Writable row) :
    Text.lines (written rows).toList = rows.map spaced := by
  have hlines : (written rows).toList = ['\n'].intercalate (rows.map spaced) := by
    rw [written, String.toList_intercalate, List.map_map]
    refine congrArg _ (List.map_congr_left fun row _ => ?_)
    exact String.toList_intercalate
  rw [hlines, Text.lines_intercalate]
  rw [List.forall_mem_map]
  intro row hrow
  exact ⟨(h row hrow).head?_spaced.2, (h row hrow).not_mem_spaced (by decide) (by decide),
    (h row hrow).not_mem_spaced (by decide) (by decide)⟩

theorem text_significantLines_written (h : ∀ row ∈ rows, Writable row) :
    (significantLines (written rows)).map Line.text = rows.map spaced := by
  -- No line of a row is empty, and there is nothing to strip off one.
  have hkeep : ∀ x ∈ (rows.map spaced).zipIdx 1,
      (if strip x.1 = [] then none else some (⟨x.2, strip x.1⟩ : Line)) = some ⟨x.2, x.1⟩ := by
    intro x hx
    obtain ⟨row, hrow, hspaced⟩ := List.mem_map.mp (List.fst_mem_of_mem_zipIdx hx)
    rw [← hspaced, (h row hrow).strip_spaced, if_neg (h row hrow).head?_spaced.2]
  rw [significantLines, lines_written h, List.filterMap_congr hkeep, List.filterMap_eq_map',
    List.map_map]
  exact List.zipIdx_map_fst 1 (rows.map spaced)

/-- The text of some rows is read as these rows. -/
theorem rows_written (h : ∀ row ∈ rows, Writable row) :
    (Macro.expand (written rows)).errors = [] ∧ Rows (Macro.expand (written rows)).lines rows := by
  have htexts := text_significantLines_written h
  rw [Macro.expand]
  generalize significantLines (written rows) = ls at htexts
  have hline : ∀ l ∈ ls, ∃ row ∈ rows, spaced row = l.text := by
    intro l hl
    have hmem : l.text ∈ rows.map spaced := htexts ▸ List.mem_map_of_mem hl
    exact List.mem_map.mp hmem
  have hunmarked : ∀ l ∈ ls, l.text.head? ≠ some '#' := by
    intro l hl
    obtain ⟨row, hrow, hspaced⟩ := hline l hl
    exact hspaced ▸ (h row hrow).head?_spaced.1
  obtain ⟨hlines, herrors⟩ := Macro.expandLines_unmarked hunmarked
  refine ⟨herrors, ?_⟩
  rw [hlines]
  constructor
  · intro l hl
    obtain ⟨row, hrow, hspaced⟩ := hline l hl
    rw [← isSome_tokens?, ← hspaced, (h row hrow).tokens?_spaced]
    rfl
  · have htokens : ls.filterMap (fun l => tokens? l.text) = rows := by
      have htext : ls.filterMap (fun l => tokens? l.text) = (ls.map Line.text).filterMap tokens? :=
        List.filterMap_map.symm
      rw [htext, htexts, List.filterMap_map]
      exact (List.filterMap_congr fun row hrow => (h row hrow).tokens?_spaced).trans
        List.filterMap_some
    rw [htokens, List.filter_eq_self]
    intro row hrow
    obtain ⟨-, head, arguments, rfl, -⟩ := h row hrow
    rfl

end

end Assembly

end RegisterMachine
