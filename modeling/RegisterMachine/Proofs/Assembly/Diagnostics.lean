import Mathlib
import RegisterMachine.Assembly.Diagnostic
import RegisterMachine.Proofs.Assembly.ErrorLines
import RegisterMachine.Proofs.Assembly.Numbering

namespace RegisterMachine

namespace Text

/-- A line is what stands between line feeds, but for a carriage return at its end. -/
theorem exists_raw {raws : List (List Char)} (h : ∀ raw ∈ raws, '\n' ∉ raw) {i : Nat} {s : List Char}
    (hs : (lines (['\n'].intercalate raws))[i]? = some s) :
    ∃ raw, raws[i]? = some raw ∧ (s = raw ∨ s = chomp raw) := by
  rw [lines] at hs
  induction raws generalizing i with
  | nil => cases hs
  | cons raw raws ih =>
    obtain ⟨hraw, hraws⟩ := List.forall_mem_cons.mp h
    cases raws with
    | nil =>
      rw [List.intercalate_singleton, ← List.append_nil raw, linesFrom_append hraw, List.nil_append,
        linesFrom] at hs
      split at hs
      next => cases hs
      next =>
        cases i with
        | zero => exact ⟨raw, rfl, .inl (Option.some.inj hs).symm⟩
        | succ i => cases hs
    | cons next raws =>
      rw [List.intercalate_cons_cons, List.append_assoc, linesFrom_append hraw, List.nil_append,
        List.singleton_append, linesFrom, if_pos rfl] at hs
      cases i with
      | zero => exact ⟨raw, rfl, .inr (Option.some.inj hs).symm⟩
      | succ i => exact ih hraws hs

end Text

namespace Assembly

/-- What stands on a line of a source text, counted from one: the characters between two line feeds. -/
def rawLine? (source : String) (number : Nat) : Option (List Char) :=
  if number = 0 then none else (source.toList.splitOn '\n')[number - 1]?

theorem exists_rawLine {source : String} {number : Nat} {s : List Char} (hnumber : number ≠ 0)
    (h : (Text.lines source.toList)[number - 1]? = some s) :
    ∃ raw, rawLine? source number = some raw ∧ (s = raw ∨ s = Text.chomp raw) := by
  obtain ⟨raws, hne, hraws, hsource⟩ := exists_intercalate source.toList
  rw [← hsource] at h
  obtain ⟨raw, hraw, hs⟩ := Text.exists_raw hraws h
  refine ⟨raw, ?_, hs⟩
  rw [rawLine?, if_neg hnumber, ← hsource, List.splitOn_intercalate '\n' hraws hne]
  exact hraw

section

variable {source : String} {l : Line}

theorem line_of_mem (h : l ∈ significantLines source) : l.number ≠ 0 ∧ l.text ≠ [] ∧
    ∃ s, (Text.lines source.toList)[l.number - 1]? = some s ∧ strip s = l.text := by
  obtain ⟨⟨s, number⟩, hs, hl⟩ := List.mem_filterMap.mp h
  obtain ⟨hpos, hs⟩ := List.mk_mem_zipIdx_iff_le_and_getElem?_sub.mp hs
  simp only at hl
  split at hl
  next => cases hl
  next hne =>
    obtain rfl := Option.some.inj hl
    exact ⟨Nat.ne_of_gt hpos, hne, s, hs, rfl⟩

/-- A significant line is stripped from what stands on the line of its number. -/
theorem rawLine_of_mem (h : l ∈ significantLines source) :
    ∃ raw, rawLine? source l.number = some raw ∧ strip raw = l.text := by
  obtain ⟨hnumber, -, s, hs, htext⟩ := line_of_mem h
  obtain ⟨raw, hraw, rfl | rfl⟩ := exists_rawLine hnumber hs
  · exact ⟨s, hraw, htext⟩
  · exact ⟨raw, hraw, (strip_chomp raw).symm.trans htext⟩

end

theorem withoutReturns_concat (s : List Char) : withoutReturns (s ++ ['\r']) = withoutReturns s := by
  rw [withoutReturns, List.reverse_concat, List.dropWhile_cons, if_pos (by decide), withoutReturns]

theorem withoutReturns_chomp (s : List Char) : withoutReturns (Text.chomp s) = withoutReturns s := by
  rcases Text.chomp_cases s with hs | hs
  · rw [hs]
  · conv_rhs => rw [hs]
    rw [withoutReturns_concat]

/-- Without the carriage returns at its end nothing else is missing of a line. -/
theorem exists_returns (s : List Char) :
    (∃ k, s = withoutReturns s ++ List.replicate k '\r') ∧ (withoutReturns s).getLast? ≠ some '\r' := by
  have hsplit := List.takeWhile_append_dropWhile (p := (· = '\r')) (l := s.reverse)
  constructor
  · refine ⟨(s.reverse.takeWhile (· = '\r')).length, ?_⟩
    have hreturns : s.reverse.takeWhile (· = '\r') =
        List.replicate (s.reverse.takeWhile (· = '\r')).length '\r' :=
      List.eq_replicate_length.mpr fun c hc => by simpa using List.mem_takeWhile_imp hc
    have hs := congrArg List.reverse hsplit
    rw [List.reverse_append, List.reverse_reverse, hreturns, List.reverse_replicate] at hs
    exact hs.symm
  · have hhead := List.head?_dropWhile_not (· = '\r') s.reverse
    rw [withoutReturns, List.getLast?_reverse]
    intro hlast
    rw [hlast] at hhead
    simp at hhead

theorem diagnostic_of_line {source : String} {number : Nat} {s : List Char} (hnumber : number ≠ 0)
    (h : (Text.lines source.toList)[number - 1]? = some s) (file message : String) :
    diagnostic file source number message = "error: " ++ message ++ "\n --> " ++ file ++ ":" ++
      toString number ++ "\n" ++ "  |\n" ++ lineColumn number ++ " | " ++ String.ofList (withoutReturns s) ++
      "\n  |" := by
  rw [diagnostic, if_neg hnumber, excerpt, h]
  simp only [String.append_assoc]

namespace Macro

/-- The texts that a line outside definitions stands for: its own, or those of the macro that it uses. -/
def texts (ms : List Macro) (l : Line) : List (List Char) :=
  match invoked? l.text with
  | none => [l.text]
  | some name =>
    match ms.find? (·.name == name) with
    | some m => m.body
    | none => []

theorem linesOf_expandLine (ms : List Macro) (l : Line) :
    linesOf (expandLine ms l) = (texts ms l).map fun text => ⟨l.number, text⟩ := by
  rw [expandLine, texts]
  cases invoked? l.text with
  | none => rfl
  | some name =>
    simp only
    cases ms.find? (·.name == name) <;> rfl

/-- The texts behind the macros, each with the line of the source text that it comes from. -/
def origins (source : String) : List (Line × List Char) :=
  (collect (significantLines source)).rest.flatMap fun l =>
    (texts (collect (significantLines source)).macros l).map fun text => (l, text)

/-- Behind the macros every text has the number of the line that it comes from. -/
theorem lines_expand {source : String} (h : (expand source).errors = []) :
    (expand source).lines = (origins source).map fun origin => ⟨origin.1.number, origin.2⟩ := by
  rw [expand, expandLines] at h ⊢
  by_cases herrors : (collect (significantLines source)).errors = []
  · simp only [herrors, if_true, List.flatMap_map, linesOf_expandLine, origins, List.map_flatMap,
      List.map_map, Function.comp_def]
  · simp only [if_neg herrors] at h
    exact absurd h herrors

theorem mem_of_mem_origins {source : String} {origin : Line × List Char} (h : origin ∈ origins source) :
    origin.1 ∈ significantLines source := by
  obtain ⟨l, hl, htexts⟩ := List.mem_flatMap.mp h
  obtain ⟨text, -, rfl⟩ := List.mem_map.mp htexts
  exact (rest_collect _).subset hl

end Macro

theorem mem_numbered {texts : List (List Char)} {n : Nat} (h : n ∈ (numbered texts).map Line.number) :
    n ≠ 0 ∧ n - 1 < texts.length := by
  rw [numbered, List.map_map] at h
  obtain ⟨⟨text, number⟩, hmem, rfl⟩ := List.mem_map.mp h
  obtain ⟨hpos, htext⟩ := List.mk_mem_zipIdx_iff_le_and_getElem?_sub.mp hmem
  exact ⟨Nat.ne_of_gt hpos, (List.getElem?_eq_some_iff.mp htext).1⟩

/-- The first error is the second one, which tells where behind the macros it was found: it is on the line
of the source text that the text at this place comes from. -/
structure Carried (source : String) (e e' : Error) : Prop where
  kind : e.kind = e'.kind
  detail : e.detail = e'.detail
  line : e.line = 0 ∧ e'.line = 0 ∨ ∃ l text raw,
    e'.line ≠ 0 ∧ (Macro.origins source)[e'.line - 1]? = some (l, text) ∧ e.line = l.number ∧
      rawLine? source l.number = some raw ∧ strip raw = l.text

/-- Lines have the errors of their texts, on the lines at the places where these are found. -/
theorem errors_numbered (ls : List Line) (warnings : List String) :
    (assembleLines ls warnings).errors =
      (assembleLines (numbered (ls.map Line.text)) []).errors.map (Error.renumber (numberAt ls)) := by
  have houtcome := outcome_assembleLines_renumber (f := numberAt ls) rfl
    (numbered (ls.map Line.text)) [] warnings
  rw [numbered_numberAt] at houtcome
  rw [Assembled.errors, houtcome, Assembled.errors]
  cases (assembleLines (numbered (ls.map Line.text)) []).outcome <;> rfl

theorem carried_errors {source : String} (h : (Macro.expand source).errors = []) :
    List.Forall₂ (Carried source) (assemble source).errors
      (assembleLines (numbered ((Macro.origins source).map Prod.snd)) []).errors := by
  have hassemble : assemble source =
      assembleLines (Macro.expand source).lines (Macro.expand source).warnings := if_pos h
  have htexts : (Macro.expand source).lines.map Line.text = (Macro.origins source).map Prod.snd := by
    rw [Macro.lines_expand h, List.map_map]
    rfl
  rw [hassemble, errors_numbered, htexts, List.forall₂_map_left_iff, List.forall₂_same]
  intro e he
  refine ⟨rfl, rfl, ?_⟩
  rcases (follows_assembleLines _ _).mem he with hzero | hmem
  · exact .inl ⟨by rw [Error.renumber, hzero]; rfl, hzero⟩
  · obtain ⟨hne, hlt⟩ := mem_numbered hmem
    rw [List.length_map] at hlt
    have horigin := List.getElem?_eq_getElem hlt
    obtain ⟨raw, hraw, hstrip⟩ := rawLine_of_mem (Macro.mem_of_mem_origins (List.getElem_mem hlt))
    refine .inr ⟨_, _, raw, hne, horigin, ?_, hraw, hstrip⟩
    rw [Error.renumber, numberAt, if_neg hne, Macro.lines_expand h, List.getElem?_map, horigin]
    rfl

/-- Every error is on a line of the source text that holds more than blanks and comments, or about the file
as a whole. The lines of the errors do not decrease, and only the last error may be about the file. An error
behind the macros is on the line that the text it was found on comes from, which is the line of the use if
it is a text of a macro. For a line a diagnostic shows what stands on it, without the carriage returns at
its end. -/
theorem errors_located (source : String) :
    (∀ e ∈ (assemble source).errors,
      e.line = 0 ∨ ∃ raw, rawLine? source e.line = some raw ∧ strip raw ≠ []) ∧
    (∃ front back, (assemble source).errors.map Error.line = front ++ back ∧
      front.Pairwise (· ≤ ·) ∧ 0 ∉ front ∧ (back = [] ∨ back = [0])) ∧
    ((Macro.expand source).errors = [] →
      (Macro.expand source).lines =
        (Macro.origins source).map (fun origin => ⟨origin.1.number, origin.2⟩) ∧
      List.Forall₂ (Carried source) (assemble source).errors
        (assembleLines (numbered ((Macro.origins source).map Prod.snd)) []).errors) ∧
    ∀ e ∈ (assemble source).errors, e.line ≠ 0 → ∃ shown k,
      rawLine? source e.line = some (shown ++ List.replicate k '\r') ∧ shown.getLast? ≠ some '\r' ∧
        ∀ file message, diagnostic file source e.line message =
          "error: " ++ message ++ "\n --> " ++ file ++ ":" ++ toString e.line ++ "\n" ++
            "  |\n" ++ lineColumn e.line ++ " | " ++ String.ofList shown ++ "\n  |" := by
  obtain ⟨numbers, hsorted, hnumbers, hfollows⟩ := follows_assemble source
  have hline : ∀ e ∈ (assemble source).errors,
      e.line = 0 ∨ ∃ l ∈ significantLines source, l.number = e.line := fun e he =>
    (hfollows.mem he).imp_right (hnumbers e.line)
  refine ⟨fun e he => ?_, ?_, fun h => ⟨Macro.lines_expand h, carried_errors h⟩, fun e he hne => ?_⟩
  · rcases hline e he with hzero | ⟨l, hl, hnumber⟩
    · exact .inl hzero
    · obtain ⟨raw, hraw, htext⟩ := rawLine_of_mem hl
      refine .inr ⟨raw, hnumber ▸ hraw, ?_⟩
      rw [htext]
      exact (line_of_mem hl).2.1
  · obtain ⟨front, back, hes, hfront, hback⟩ := hfollows
    refine ⟨front, back, hes, hsorted.sublist hfront, fun hzero => ?_, hback⟩
    obtain ⟨l, hl, hnumber⟩ := hnumbers 0 (hfront.subset hzero)
    exact (line_of_mem hl).1 hnumber
  · obtain hzero | ⟨l, hl, hnumber⟩ := hline e he
    · exact absurd hzero hne
    obtain ⟨-, -, s, hs, -⟩ := line_of_mem hl
    rw [hnumber] at hs
    obtain ⟨raw, hraw, hchomp⟩ := exists_rawLine hne hs
    have hshown : withoutReturns s = withoutReturns raw := by
      rcases hchomp with rfl | rfl
      · rfl
      · exact withoutReturns_chomp raw
    obtain ⟨⟨k, hk⟩, hlast⟩ := exists_returns raw
    refine ⟨withoutReturns raw, k, hk ▸ hraw, hlast, fun file message => ?_⟩
    rw [diagnostic_of_line hne hs, hshown]

/-- A definition that goes on with a line that is no string has its error there, and a line of a macro where
the macro is used. -/
example : (assemble "#macro A \"x\" \\\n; more\nfoo").errors.map Error.line = [3] ∧
    (assemble "#macro A \"x\"\n.code\n\n#A\n#A").errors.map Error.line = [4, 5] := by decide +kernel

end Assembly

end RegisterMachine
