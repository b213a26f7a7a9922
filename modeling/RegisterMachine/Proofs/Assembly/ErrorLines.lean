import Mathlib
import RegisterMachine.Proofs.Assembly.Uses

namespace RegisterMachine.Assembly

/-- The list gets one more entry at most, and that is on this line. -/
def Grows {α : Type} (line : α → Nat) (number : Nat) (as as' : List α) : Prop :=
  as' = as ∨ ∃ a, line a = number ∧ as' = as ++ [a]

theorem Grows.error {cause : Cause} {number : Nat} {es : List Error} :
    Grows Error.line number es (es ++ [cause.onLine number]) :=
  .inr ⟨_, rfl, rfl⟩

/-- What is found in steps stands on some of the lines that the steps are about, in their order. -/
theorem sublist_foldl {α β σ : Type} {step : σ → β → σ} {found : σ → List α} {line : α → Nat}
    {number : β → Nat} (hstep : ∀ s b, Grows line (number b) (found s) (found (step s b))) (s : σ)
    (bs : List β) : ∃ as, found (bs.foldl step s) = found s ++ as ∧
      (as.map line).Sublist (bs.map number) := by
  induction bs generalizing s with
  | nil => exact ⟨[], (List.append_nil _).symm, List.nil_sublist _⟩
  | cons b bs ih =>
    obtain ⟨as, has, hsublist⟩ := ih (step s b)
    rw [List.foldl_cons, has, List.map_cons]
    rcases hstep s b with hsame | ⟨a, ha, hmore⟩
    · exact ⟨as, by rw [hsame], hsublist.cons _⟩
    · refine ⟨a :: as, by rw [hmore, List.append_assoc, List.singleton_append], ?_⟩
      rw [List.map_cons, ha]
      exact hsublist.cons_cons _

/-- The errors are on some of the lines with these numbers, in their order; an error of the file as a whole
may come behind them. -/
def Follows (numbers : List Nat) (es : List Error) : Prop :=
  ∃ front back, es.map Error.line = front ++ back ∧ front.Sublist numbers ∧ (back = [] ∨ back = [0])

theorem Follows.of_sublist {numbers : List Nat} {es : List Error}
    (h : (es.map Error.line).Sublist numbers) : Follows numbers es :=
  ⟨_, [], (List.append_nil _).symm, h, .inl rfl⟩

theorem Follows.mono {numbers numbers' : List Nat} {es : List Error} (h : Follows numbers es)
    (hnumbers : numbers.Sublist numbers') : Follows numbers' es := by
  obtain ⟨front, back, hes, hfront, hback⟩ := h
  exact ⟨front, back, hes, hfront.trans hnumbers, hback⟩

theorem Follows.mem {numbers : List Nat} {es : List Error} (h : Follows numbers es) {e : Error}
    (he : e ∈ es) : e.line = 0 ∨ e.line ∈ numbers := by
  obtain ⟨front, back, hes, hfront, hback⟩ := h
  rcases List.mem_append.mp (hes ▸ List.mem_map_of_mem he) with hmem | hmem
  · exact .inr (hfront.subset hmem)
  · rcases hback with rfl | rfl
    · cases hmem
    · exact .inl (List.mem_singleton.mp hmem)

theorem Follows.whole {numbers : List Nat} {es : List Error} {cause : Cause}
    (h : (es.map Error.line).Sublist numbers) : Follows numbers (es ++ [cause.onLine 0]) :=
  ⟨_, [0], List.map_append, h, .inr rfl⟩

namespace Outline

variable {o : Outline} {line : Nat} {head name : String} {arguments : List String}

theorem grows_addDirective :
    Grows Error.line line o.errors (o.addDirective line head arguments).errors ∧
      Grows Directive.line line o.directives (o.addDirective line head arguments).directives := by
  unfold addDirective
  split
  next =>
    simp only
    split
    next => exact ⟨.error, .inl rfl⟩
    next =>
      split
      next => exact ⟨.inl rfl, .inl rfl⟩
      next => exact ⟨.error, .inl rfl⟩
  next =>
    split
    next => exact ⟨.error, .inl rfl⟩
    next => exact ⟨.inl rfl, .inr ⟨_, rfl, rfl⟩⟩

theorem grows_addLabel :
    Grows Error.line line o.errors (o.addLabel line name arguments).errors ∧
      (o.addLabel line name arguments).directives = o.directives := by
  unfold addLabel
  split
  next => exact ⟨.error, rfl⟩
  split
  next => exact ⟨.error, rfl⟩
  split
  next => exact ⟨.error, rfl⟩
  simp only
  split
  next => exact ⟨.inl rfl, rfl⟩
  next =>
    split
    next => exact ⟨.error, rfl⟩
    next => exact ⟨.inl rfl, rfl⟩

theorem grows_addTokens :
    Grows Error.line line o.errors (o.addTokens line head arguments).errors ∧
      Grows Directive.line line o.directives (o.addTokens line head arguments).directives := by
  unfold addTokens
  split
  next => exact grows_addDirective
  split
  next => exact ⟨.error, .inl rfl⟩
  split
  next => exact ⟨grows_addLabel.1, .inl grows_addLabel.2⟩
  split
  next => exact ⟨.inl rfl, .inl rfl⟩
  next => exact ⟨.error, .inl rfl⟩

/-- A line makes one error at most or gives one directive, and both are on this line. -/
theorem grows_addLine (o : Outline) (l : Line) :
    Grows Error.line l.number o.errors (o.addLine l).errors ∧
      Grows Directive.line l.number o.directives (o.addLine l).directives := by
  unfold addLine
  split
  next => exact ⟨.error, .inl rfl⟩
  next => exact ⟨.inl rfl, .inl rfl⟩
  next => exact grows_addTokens

theorem follows_ofLines (ls : List Line) : Follows (ls.map Line.number) (ofLines ls).errors := by
  obtain ⟨es, hes, hsublist⟩ := sublist_foldl (fun o l => (grows_addLine o l).1) {} ls
  rw [ofLines, finish]
  split
  next =>
    rw [hes]
    exact .of_sublist hsublist
  next =>
    rw [addError, hes]
    exact .whole hsublist

theorem directives_ofLines (ls : List Line) :
    ((ofLines ls).directives.map Directive.line).Sublist (ls.map Line.number) := by
  obtain ⟨ds, hds, hsublist⟩ := sublist_foldl (fun o l => (grows_addLine o l).2) {} ls
  have hfinish : (ofLines ls).directives = (ls.foldl addLine {}).directives := by
    rw [ofLines, finish]
    split <;> rfl
  rw [hfinish, hds]
  exact hsublist

end Outline

namespace Declarations

variable {o : Outline} {d : Declarations}

theorem grows_step (o : Outline) (isFirst : Bool) (d : Declarations) (directive : Directive) :
    Grows Error.line directive.line d.errors (d.step o isFirst directive).errors := by
  unfold step
  split
  next hadd => exact .inl (errors_add hadd)
  next => exact .error

theorem follows_finish {numbers : List Nat} (h : (d.errors.map Error.line).Sublist numbers) :
    Follows numbers d.finish.errors := by
  unfold finish
  split
  next => exact ⟨[], [0], rfl, List.nil_sublist _, .inr rfl⟩
  next => exact .of_sublist h

theorem follows_ofOutline (o : Outline) :
    Follows (o.directives.map Directive.line) (ofOutline o).errors := by
  refine follows_finish ?_
  cases o.directives with
  | nil => exact List.nil_sublist _
  | cons first rest =>
    obtain ⟨es, hes, hsublist⟩ := sublist_foldl (grows_step o false) (step o {} true first) rest
    simp only [hes, List.map_cons]
    rcases grows_step o true {} first with hsame | ⟨e, he, hmore⟩
    · rw [hsame]
      exact hsublist.cons _
    · rw [hmore, ← he]
      exact hsublist.cons_cons _

end Declarations

/-- The errors of lines without macros follow these lines. -/
theorem follows_assembleLines (ls : List Line) (warnings : List String) :
    Follows (ls.map Line.number) (assembleLines ls warnings).errors := by
  by_cases houtline : (Outline.ofLines ls).errors = []
  swap
  · rw [Assembled.errors, outcome_of_outline houtline]
    exact Outline.follows_ofLines ls
  by_cases hdeclarations : (scope ls).declarations.errors = []
  swap
  · rw [Assembled.errors, outcome_of_declarations houtline hdeclarations]
    exact (Declarations.follows_ofOutline _).mono (Outline.directives_ofLines ls)
  cases hcode : (instructions (scope ls) (Outline.ofLines ls).code).1 with
  | error e =>
    rw [Assembled.errors, outcome_of_instructions houtline hdeclarations hcode]
    have hfound := Scope.instructions_eq_error_iff.mp hcode
    rw [Phase.findSome?_code houtline] at hfound
    obtain ⟨l, hl, hfault⟩ := List.exists_of_findSome?_eq_some hfound
    obtain ⟨c, hc, hfault⟩ := Option.bind_eq_some_iff.mp hfault
    obtain ⟨cause, -, rfl⟩ := Scope.fault?_eq_some_iff.mp hfault
    refine .of_sublist (List.singleton_sublist.mpr (List.mem_map.mpr ⟨l, hl, ?_⟩))
    exact (Line.line_of_code? hc).symm
  | ok is =>
    obtain ⟨entry, hentry⟩ := Declarations.entry_of_errors hdeclarations
    rw [Assembled.errors, outcome_of_image houtline hdeclarations hentry hcode]
    exact .of_sublist (List.nil_sublist _)

namespace Macro

namespace Collected

variable {c : Collected} {numbers : List Nat} {es : List Error}

/-- The lines of the errors so far, and the line of the definition that goes on. -/
def marks (c : Collected) : List Nat :=
  c.errors.map Error.line ++ c.pending.toList.map Macro.line

theorem marks_eq (h : c.pending = none) : c.marks = c.errors.map Error.line := by
  rw [marks, h]
  exact List.append_nil _

theorem errors_sublist_marks (c : Collected) : (c.errors.map Error.line).Sublist c.marks :=
  List.sublist_append_left _ _

/-- An error that ends what was going on. -/
theorem marks_concat {cause : Cause} {line : Nat} (h : c.pending = none)
    (hes : es ++ [cause.onLine line] = c.errors) : c.marks = es.map Error.line ++ [line] := by
  rw [marks_eq h, ← hes, List.map_append]
  rfl

theorem marks_complete (c : Collected) (m : Macro) :
    (c.complete m).marks.Sublist (c.errors.map Error.line ++ [m.line]) := by
  unfold complete
  split
  next => rw [marks_concat rfl rfl]
  next =>
    rw [marks_eq rfl]
    exact List.sublist_append_left _ _

theorem marks_extend (c : Collected) (m : Macro) (text : List Char) (more : Bool) :
    (c.extend m text more).marks.Sublist (c.errors.map Error.line ++ [m.line]) := by
  cases more with
  | true => exact List.Sublist.refl _
  | false => exact marks_complete c { m with body := m.body ++ [text] }

/-- A definition gets one error at most, on one of its lines. -/
theorem marks_step (l : Line) (h : c.marks.Sublist numbers) :
    (c.step l).marks.Sublist (numbers ++ [l.number]) := by
  have hline : (c.errors.map Error.line ++ [l.number]).Sublist (numbers ++ [l.number]) :=
    ((errors_sublist_marks c).trans h).append (List.Sublist.refl _)
  have hnumbers : numbers.Sublist (numbers ++ [l.number]) := List.sublist_append_left _ _
  unfold step
  split
  next m hpending =>
    have hmarks : c.marks = c.errors.map Error.line ++ [m.line] := by
      rw [marks, hpending]
      rfl
    rw [hmarks] at h
    split
    next => exact ((marks_extend c m _ _).trans h).trans hnumbers
    next => rwa [marks_concat rfl rfl]
  next hpending =>
    split
    next =>
      split
      next => exact (marks_extend c _ _ _).trans hline
      next cause _ =>
        have hmarks : marks { c with errors := c.errors ++ [cause.onLine l.number] } = _ :=
          marks_concat hpending rfl
        rwa [hmarks]
    next => exact h.trans hnumbers

theorem marks_foldl (ls : List Line) (h : c.marks.Sublist numbers) :
    (ls.foldl step c).marks.Sublist (numbers ++ ls.map Line.number) := by
  induction ls generalizing c numbers with
  | nil => rwa [List.map_nil, List.append_nil]
  | cons l ls ih =>
    have hnext := ih (marks_step l h)
    rwa [List.append_assoc] at hnext

theorem errors_finish (c : Collected) : (c.finish.errors.map Error.line).Sublist c.marks := by
  unfold finish
  split
  next m hpending =>
    rw [marks, hpending, List.map_append]
    exact List.Sublist.refl _
  next => exact errors_sublist_marks c

end Collected

theorem errors_collect_sublist (ls : List Line) :
    ((collect ls).errors.map Error.line).Sublist (ls.map Line.number) := by
  have hnone : (Collected.marks {}).Sublist [] := List.Sublist.refl []
  exact (Collected.errors_finish _).trans (Collected.marks_foldl ls hnone)

/-- The errors about macros are on some of the lines, in their order. -/
theorem errors_expandLines_sublist (ls : List Line) :
    ((expandLines ls).errors.map Error.line).Sublist (ls.map Line.number) := by
  unfold expandLines
  by_cases herrors : (collect ls).errors = []
  · simp only [herrors, if_true]
    refine List.Sublist.trans ?_ ((rest_collect ls).map Line.number)
    generalize (collect ls).rest = rest
    induction rest with
    | nil => exact List.Sublist.refl []
    | cons l rest ih =>
      rw [List.map_cons, List.filterMap_cons]
      cases hfound : errorOf? (expandLine (collect ls).macros l) with
      | none => exact ih.cons _
      | some e =>
        rw [List.map_cons, line_of_errorOf? hfound]
        exact ih.cons_cons _
  · simp only [if_neg herrors]
    exact errors_collect_sublist ls

end Macro

/-- The lines that a source text has behind its macros have numbers of its significant lines. -/
theorem exists_number_expand {source : String} {l : Line} (h : l ∈ (Macro.expand source).lines) :
    ∃ l' ∈ significantLines source, l'.number = l.number := by
  unfold Macro.expand Macro.expandLines at h
  by_cases herrors : (Macro.collect (significantLines source)).errors = []
  · simp only [herrors, if_true, List.flatMap_map] at h
    obtain ⟨l', hl', hl⟩ := List.mem_flatMap.mp h
    exact ⟨l', (Macro.rest_collect _).subset hl', (Macro.number_of_mem_expandLine hl).symm⟩
  · simp only [if_neg herrors] at h
    exact absurd h List.not_mem_nil

/-- The errors of a source text follow lines of it that hold more than blanks and comments. -/
theorem follows_assemble (source : String) : ∃ numbers : List Nat, numbers.Pairwise (· ≤ ·) ∧
    (∀ n ∈ numbers, ∃ l ∈ significantLines source, l.number = n) ∧
    Follows numbers (assemble source).errors := by
  unfold assemble
  simp only
  split
  next hmacros =>
    refine ⟨_, List.pairwise_map.mpr (Macro.ordered_expand source), ?_, follows_assembleLines _ _⟩
    intro n hn
    obtain ⟨l, hl, rfl⟩ := List.mem_map.mp hn
    exact exists_number_expand hl
  next =>
    refine ⟨(significantLines source).map Line.number, ?_, fun n hn => List.mem_map.mp hn, ?_⟩
    · exact List.pairwise_map.mpr ((pairwise_significantLines source).imp Nat.le_of_lt)
    · exact .of_sublist (Macro.errors_expandLines_sublist _)

end RegisterMachine.Assembly
