import Mathlib
import RegisterMachine.Proofs.Assembly.Written

namespace RegisterMachine

namespace Text

variable {s t : List Char} {c : Char}

theorem trimRight_prefix (s : List Char) : trimRight s <+: s := by
  have hsuffix : s.reverse.dropWhile isBlank <:+ s.reverse := List.dropWhile_suffix isBlank
  rw [← List.reverse_reverse s]
  exact List.reverse_prefix.mpr (by simpa only [List.reverse_reverse] using hsuffix)

theorem isBlank_of_getLast?_trimRight (h : (trimRight s).getLast? = some c) : isBlank c = false := by
  rw [trimRight, List.getLast?_reverse] at h
  have hfirst := List.head?_dropWhile_not isBlank s.reverse
  rw [h] at hfirst
  exact hfirst

theorem isBlank_of_head?_trim (h : (trim s).head? = some c) : isBlank c = false := by
  obtain ⟨rest, hrest⟩ := trimRight_prefix (s.dropWhile isBlank)
  have hne : trim s ≠ [] := by
    intro hnil
    rw [hnil] at h
    cases h
  have hhead : (s.dropWhile isBlank).head? = some c := by
    rw [← hrest]
    exact (List.head?_append_of_ne_nil _ hne).trans h
  have hfirst := List.head?_dropWhile_not isBlank s
  rw [hhead] at hfirst
  exact hfirst

theorem trim_trim (s : List Char) : trim (trim s) = trim s :=
  trim_eq_self (fun _ h => isBlank_of_head?_trim h) fun _ h => isBlank_of_getLast?_trimRight h

theorem trimRight_concat (hc : isBlank c = true) : trimRight (s ++ [c]) = trimRight s := by
  rw [trimRight, List.reverse_concat, List.dropWhile_cons, if_pos hc]
  rfl

/-- A blank at the end is cut off. -/
theorem trim_concat (hc : isBlank c = true) : trim (s ++ [c]) = trim s := by
  rw [trim, List.dropWhile_append, trim]
  by_cases hempty : (s.dropWhile isBlank).isEmpty = true
  · have hnil : s.dropWhile isBlank = [] := List.isEmpty_iff.mp hempty
    rw [if_pos hempty, hnil, List.dropWhile_cons, if_pos hc]
    rfl
  · rw [if_neg hempty, trimRight_concat hc]

theorem chomp_cases (s : List Char) : chomp s = s ∨ s = chomp s ++ ['\r'] := by
  by_cases hlast : s.getLast? = some '\r'
  · right
    rw [chomp, if_pos hlast]
    exact (List.dropLast_append_getLast? _ hlast).symm
  · left
    rw [chomp, if_neg hlast]

end Text

namespace Assembly

section

variable {quoted : Bool} {s t : List Char} {c : Char}

theorem uncommentedFrom_cons_of_not_quote (hc : c ≠ '"')
    (h : uncommentedFrom quoted (c :: s) = c :: s) : uncommentedFrom quoted s = s := by
  rw [uncommentedFrom, if_neg hc] at h
  by_cases hcomment : c = ';' ∧ quoted = false
  · rw [if_pos hcomment] at h
    cases h
  · rw [if_neg hcomment] at h
    exact (List.cons.inj h).2

theorem uncommentedFrom_prefix (h : uncommentedFrom quoted (s ++ t) = s ++ t) :
    uncommentedFrom quoted s = s := by
  induction s generalizing quoted with
  | nil => rfl
  | cons c s ih =>
    rw [List.cons_append, uncommentedFrom] at h
    rw [uncommentedFrom]
    by_cases hc : c = '"'
    · rw [if_pos hc] at h ⊢
      rw [ih (List.cons.inj h).2]
    · rw [if_neg hc] at h ⊢
      by_cases hcomment : c = ';' ∧ quoted = false
      · rw [if_pos hcomment] at h
        cases h
      · rw [if_neg hcomment] at h ⊢
        rw [ih (List.cons.inj h).2]

theorem uncommentedFrom_uncommentedFrom (quoted : Bool) (s : List Char) :
    uncommentedFrom quoted (uncommentedFrom quoted s) = uncommentedFrom quoted s := by
  induction s generalizing quoted with
  | nil => rfl
  | cons c s ih =>
    rw [uncommentedFrom]
    by_cases hc : c = '"'
    · rw [if_pos hc, uncommentedFrom, if_pos hc, ih]
    · rw [if_neg hc]
      by_cases hcomment : c = ';' ∧ quoted = false
      · rw [if_pos hcomment]
        rfl
      · rw [if_neg hcomment, uncommentedFrom, if_neg hc, if_neg hcomment, ih]

theorem uncommented_dropWhile (h : uncommented s = s) :
    uncommented (s.dropWhile Text.isBlank) = s.dropWhile Text.isBlank := by
  induction s with
  | nil => rfl
  | cons c s ih =>
    rw [List.dropWhile_cons]
    split
    next hblank =>
      have hquote : c ≠ '"' := by
        rintro rfl
        exact absurd hblank (by decide)
      exact ih (uncommentedFrom_cons_of_not_quote hquote h)
    next => exact h

/-- A stripped line has nothing more to strip. -/
theorem strip_strip (s : List Char) : strip (strip s) = strip s := by
  have hclean : uncommented (uncommented s) = uncommented s := uncommentedFrom_uncommentedFrom false s
  have hfront := uncommented_dropWhile hclean
  obtain ⟨rest, hrest⟩ := Text.trimRight_prefix ((uncommented s).dropWhile Text.isBlank)
  have hstrip : uncommented (strip s) = strip s := by
    rw [← hrest] at hfront
    exact uncommentedFrom_prefix hfront
  have htrim : strip (strip s) = Text.trim (uncommented (strip s)) := rfl
  rw [htrim, hstrip]
  exact Text.trim_trim _

theorem uncommentedFrom_concat (quoted : Bool) (s : List Char) (hc : c ≠ '"') :
    uncommentedFrom quoted (s ++ [c]) = uncommentedFrom quoted s ∨
      uncommentedFrom quoted (s ++ [c]) = uncommentedFrom quoted s ++ [c] := by
  induction s generalizing quoted with
  | nil =>
    rw [List.nil_append, uncommentedFrom.eq_2, if_neg hc]
    by_cases hcomment : c = ';' ∧ quoted = false
    · rw [if_pos hcomment]
      exact .inl rfl
    · rw [if_neg hcomment]
      exact .inr rfl
  | cons d s ih =>
    rw [List.cons_append, uncommentedFrom, uncommentedFrom]
    by_cases hd : d = '"'
    · rw [if_pos hd, if_pos hd, List.cons_append, List.cons_inj_right, List.cons_inj_right]
      exact ih _
    · rw [if_neg hd, if_neg hd]
      by_cases hcomment : d = ';' ∧ quoted = false
      · rw [if_pos hcomment, if_pos hcomment]
        exact .inl rfl
      · rw [if_neg hcomment, if_neg hcomment, List.cons_append, List.cons_inj_right,
          List.cons_inj_right]
        exact ih _

/-- The carriage return at the end of a line is stripped off, or stands in its comment. -/
theorem strip_chomp (s : List Char) : strip (Text.chomp s) = strip s := by
  rcases Text.chomp_cases s with hs | hs
  · rw [hs]
  · have hconcat : strip s = strip (Text.chomp s ++ ['\r']) := congrArg strip hs
    rw [hconcat, strip, strip, uncommented, uncommented]
    have hreturn : '\r' ≠ '"' := by decide
    rcases uncommentedFrom_concat false (Text.chomp s) hreturn with hline | hline
    · rw [hline]
    · rw [hline, Text.trim_concat (by decide)]

theorem uncommentedFrom_sublist (quoted : Bool) (s : List Char) : (uncommentedFrom quoted s).Sublist s := by
  induction s generalizing quoted with
  | nil => exact List.Sublist.refl []
  | cons c s ih =>
    rw [uncommentedFrom]
    split
    next => exact (ih _).cons_cons c
    next =>
      split
      next => exact List.nil_sublist _
      next => exact (ih _).cons_cons c

theorem strip_sublist (s : List Char) : (strip s).Sublist s :=
  (Text.trimRight_prefix _).sublist.trans
    ((List.dropWhile_suffix _).sublist.trans (uncommentedFrom_sublist false s))

end

/-- The lines that are left of some lines after each has been stripped. -/
def significant (raws : List (List Char)) : List (List Char) :=
  (raws.map strip).filter (· ≠ [])

section

variable {raw : List Char} {raws raws' : List (List Char)}

theorem significant_cons (raw : List Char) (raws : List (List Char)) :
    significant (raw :: raws) =
      if strip raw = [] then significant raws else strip raw :: significant raws := by
  rw [significant, List.map_cons, List.filter_cons]
  by_cases hraw : strip raw = [] <;> simp [hraw, significant]

theorem significant_append : significant (raws ++ raws') = significant raws ++ significant raws' := by
  rw [significant, List.map_append, List.filter_append]
  rfl

theorem significant_eq_self (h : ∀ raw ∈ raws, strip raw = raw ∧ raw ≠ []) :
    significant raws = raws := by
  have hstrip : raws.map strip = raws :=
    (List.map_congr_left fun raw hraw => (h raw hraw).1).trans (List.map_id' raws)
  rw [significant, hstrip, List.filter_eq_self]
  exact fun raw hraw => decide_eq_true (h raw hraw).2

theorem significant_lines (h : ∀ raw ∈ raws, '\n' ∉ raw) :
    significant (Text.lines (['\n'].intercalate raws)) = significant raws := by
  rw [Text.lines]
  induction raws with
  | nil => rfl
  | cons raw raws ih =>
    obtain ⟨hraw, hraws⟩ := List.forall_mem_cons.mp h
    cases raws with
    | nil =>
      rw [List.intercalate_singleton, ← List.append_nil raw, Text.linesFrom_append hraw,
        List.nil_append, List.append_nil, Text.linesFrom]
      cases raw with
      | nil => rfl
      | cons c raw => rfl
    | cons next raws =>
      rw [List.intercalate_cons_cons, List.append_assoc, Text.linesFrom_append hraw, List.nil_append,
        List.singleton_append, Text.linesFrom, if_pos rfl, significant_cons, strip_chomp, ih hraws,
        ← significant_cons]

theorem text_significantLines (source : String) :
    (significantLines source).map Line.text = significant (Text.lines source.toList) := by
  rw [significantLines, significant, List.map_filterMap]
  generalize Text.lines source.toList = raws
  generalize 1 = number
  induction raws generalizing number with
  | nil => rfl
  | cons raw raws ih =>
    rw [List.zipIdx_cons, List.filterMap_cons, List.map_cons, List.filter_cons, ih]
    by_cases hraw : strip raw = [] <;> simp [hraw]

/-- Every text is made of pieces between line feeds. -/
theorem exists_intercalate (s : List Char) :
    ∃ raws, raws ≠ [] ∧ (∀ raw ∈ raws, '\n' ∉ raw) ∧ ['\n'].intercalate raws = s := by
  induction s with
  | nil => exact ⟨[[]], List.cons_ne_nil _ _, by simp, rfl⟩
  | cons c s ih =>
    obtain ⟨raws, hne, hraws, rfl⟩ := ih
    obtain ⟨raw, raws, rfl⟩ := List.exists_cons_of_ne_nil hne
    by_cases hc : c = '\n'
    · subst hc
      refine ⟨[] :: raw :: raws, List.cons_ne_nil _ _, ?_, by rw [List.intercalate_cons_cons]; rfl⟩
      exact List.forall_mem_cons.mpr ⟨List.not_mem_nil, hraws⟩
    · obtain ⟨hraw, hrest⟩ := List.forall_mem_cons.mp hraws
      refine ⟨(c :: raw) :: raws, List.cons_ne_nil _ _, List.forall_mem_cons.mpr ⟨?_, hrest⟩, ?_⟩
      · rw [List.mem_cons, not_or]
        exact ⟨Ne.symm hc, hraw⟩
      · cases raws with
        | nil => rw [List.intercalate_singleton, List.intercalate_singleton]
        | cons next raws =>
          rw [List.intercalate_cons_cons, List.intercalate_cons_cons]
          rfl

end

section

variable {current s : List Char} {quoted : Bool} {tokens : List String} {c : Char}

theorem consToken_of_ne_nil (h : current ≠ []) (tokens : List String) :
    consToken current tokens = String.ofList current :: tokens :=
  if_neg h

/-- The first token starts with what was read of it. -/
theorem prefix_tokensFrom (h : tokensFrom current quoted s = some tokens) (hne : current ≠ []) :
    ∃ token rest, tokens = token :: rest ∧ current <+: token.toList := by
  induction s generalizing current quoted tokens with
  | nil =>
    rw [tokensFrom, consToken_of_ne_nil hne] at h
    split at h
    next => cases h
    next =>
      obtain rfl := Option.some.inj h
      exact ⟨_, _, rfl, by rw [String.toList_ofList]⟩
  | cons d s ih =>
    have hnext : current ++ [d] ≠ [] := List.append_ne_nil_of_right_ne_nil _ (List.cons_ne_nil _ _)
    have hread : current <+: current ++ [d] := List.prefix_append _ _
    rw [tokensFrom] at h
    split at h
    next =>
      obtain ⟨token, rest, htokens, hprefix⟩ := ih h hnext
      exact ⟨token, rest, htokens, hread.trans hprefix⟩
    next =>
      split at h
      next =>
        obtain ⟨rest, -, rfl⟩ := Option.map_eq_some_iff.mp h
        exact ⟨_, _, consToken_of_ne_nil hne rest, by rw [String.toList_ofList]⟩
      next =>
        obtain ⟨token, rest, htokens, hprefix⟩ := ih h hnext
        exact ⟨token, rest, htokens, hread.trans hprefix⟩

/-- The first token starts with the first character that was read. -/
theorem head?_tokensFrom (h : tokensFrom current quoted s = some tokens)
    (hhead : current.head? = some c) :
    ∃ token rest, tokens = token :: rest ∧ token.toList.head? = some c := by
  have hne : current ≠ [] := by
    rintro rfl
    cases hhead
  obtain ⟨token, rest, htokens, suffix, hsuffix⟩ := prefix_tokensFrom h hne
  exact ⟨token, rest, htokens, by rw [← hsuffix, List.head?_append, hhead]; rfl⟩

end

end Assembly

end RegisterMachine
