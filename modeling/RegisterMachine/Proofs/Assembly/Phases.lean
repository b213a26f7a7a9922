import Mathlib
import RegisterMachine.Proofs.Assembly.Assemble
import RegisterMachine.Proofs.Assembly.Causes

namespace RegisterMachine.Assembly

/-- The instruction on a line: its first token is a mnemonic. -/
def Line.code? (l : Line) : Option CodeLine :=
  match tokens? l.text with
  | some (head :: operands) => (Opcode.ofMnemonic? head).map fun op => ⟨l.number, op, operands⟩
  | _ => none

theorem Line.line_of_code? {l : Line} {c : CodeLine} (h : l.code? = some c) : c.line = l.number := by
  unfold Line.code? at h
  split at h
  next =>
    obtain ⟨op, -, rfl⟩ := Option.map_eq_some_iff.mp h
    rfl
  next => cases h

/-- The error on a line whose instruction cannot be built. -/
def Scope.fault? (s : Scope) (l : CodeLine) : Option Error :=
  match s.instruction l with
  | .error cause => some (cause.onLine l.line)
  | .ok _ => none

namespace Phase

/-- The phases before a phase. -/
def earlier : Phase → List Phase
  | macros => []
  | outline => [macros]
  | declarations => [macros, outline]
  | instructions => [macros, outline, declarations]

/-- Everything that a phase finds wrong in a source text. -/
def errors (source : String) : Phase → List Error
  | macros => (Macro.expand source).errors
  | outline => (Outline.ofLines (Macro.expand source).lines).errors
  | declarations => (scope (Macro.expand source).lines).declarations.errors
  | instructions => (Macro.expand source).lines.filterMap fun l =>
      l.code?.bind (scope (Macro.expand source).lines).fault?

/-- What a phase reports of a source text: the last phase ends with the first thing it finds. -/
def report (source : String) : Phase → List Error
  | instructions => (errors source instructions).take 1
  | phase => errors source phase

/-- The phase is the first one to find something wrong. -/
structure Stops (source : String) (phase : Phase) : Prop where
  errors : phase.errors source ≠ []
  earlier : ∀ p ∈ phase.earlier, p.errors source = []

/-- The error is on the first of these lines whose instruction cannot be built. -/
def FirstFault (ls : List Line) (e : Error) : Prop :=
  ∃ front l back c cause, ls = front ++ l :: back ∧ l.code? = some c ∧
    (scope ls).instruction c = .error cause ∧ e = cause.onLine l.number ∧
    ∀ l' ∈ front, ∀ c', l'.code? = some c' → ∃ i, (scope ls).instruction c' = .ok i

end Phase

namespace Scope

variable {s : Scope}

theorem fault?_eq_some_iff {l : CodeLine} {e : Error} : s.fault? l = some e ↔
    ∃ cause, s.instruction l = .error cause ∧ e = cause.onLine l.line := by
  unfold fault?
  cases s.instruction l <;> simp [eq_comm]

theorem fault?_eq_none_iff {l : CodeLine} :
    s.fault? l = none ↔ ∃ i, s.instruction l = .ok i := by
  unfold fault?
  cases s.instruction l <;> simp

/-- The instructions are built up to the first line that makes an error. -/
theorem instructions_eq_error_iff {ls : List CodeLine} {e : Error} :
    (instructions s ls).1 = .error e ↔ ls.findSome? s.fault? = some e := by
  induction ls with
  | nil => simp [instructions]
  | cons l ls ih =>
    rw [instructions, List.findSome?_cons]
    cases hline : s.instruction l with
    | error cause => simp [fault?, hline]
    | ok i =>
      have hnone : s.fault? l = none := fault?_eq_none_iff.mpr ⟨i, hline⟩
      simp only [hnone, Except.map_eq_error_iff, ih]

end Scope

namespace Outline

variable {o : Outline}

theorem not_mnemonic {head : String} (hhead : head.toList.head? = some '.' ∨
    head.toList.getLast? = some ':') : Opcode.ofMnemonic? head = none := by
  by_contra hsome
  obtain ⟨op, hop⟩ := Option.ne_none_iff_exists'.mp hsome
  rw [Opcode.ofMnemonic?_eq_some_iff.mp hop] at hhead
  exact hhead.elim op.mnemonic_marks.1 op.mnemonic_marks.2

/-- Among lines that make no error, those with a mnemonic are the lines of code. -/
theorem code_addLine {l : Line} (h : (o.addLine l).errors = []) :
    (o.addLine l).code = o.code ++ l.code?.toList := by
  rcases addLine_cases h with ⟨ht, hadd⟩ | ⟨head, arguments, ht, hadd, hacc⟩
  · rw [hadd, Line.code?, ht]
    exact (List.append_nil _).symm
  · have hcode : l.code? =
        (Opcode.ofMnemonic? head).map fun op => ⟨l.number, op, arguments⟩ := by
      rw [Line.code?, ht]
    rw [hadd, hcode]
    cases hacc with
    | directive hin hrow =>
      obtain ⟨_, _, he, hhead, hne⟩ := hrow
      obtain ⟨rfl, rfl⟩ := List.cons.inj he
      rw [addTokens_directive hin hhead hne, not_mnemonic (.inl hhead)]
      exact (List.append_nil _).symm
    | start hin =>
      rw [addTokens_start hin, not_mnemonic (.inl rfl)]
      exact (List.append_nil _).symm
    | @label name hin hname hnew hhandler =>
      have hlast : (name ++ ":").toList.getLast? = some ':' := by
        rw [String.toList_append]
        exact List.getLast?_concat
      rw [addTokens_label hin hname hnew hhandler, not_mnemonic (.inr hlast)]
      exact (List.append_nil _).symm
    | instruction op _ hin =>
      rw [addTokens_instruction hin, Opcode.ofMnemonic?_mnemonic]
      rfl

theorem code_foldl {ls : List Line} (h : (ls.foldl addLine o).errors = []) :
    (ls.foldl addLine o).code = o.code ++ ls.filterMap Line.code? := by
  induction ls generalizing o with
  | nil => exact (List.append_nil _).symm
  | cons l ls ih =>
    have hline := code_addLine (addLine_errors_eq_nil h)
    rw [List.foldl_cons] at h ⊢
    rw [ih h, hline, List.append_assoc, List.filterMap_cons]
    cases l.code? <;> rfl

theorem code_ofLines {ls : List Line} (h : (ofLines ls).errors = []) :
    (ofLines ls).code = ls.filterMap Line.code? := by
  have hin : (ls.foldl addLine {}).inCode = true := by
    by_contra hout
    rw [ofLines, finish, if_neg hout] at h
    exact addError_errors_ne_nil h
  rw [ofLines, finish, if_pos hin] at h ⊢
  exact code_foldl h

end Outline

/-- The lines stand in the order of their numbers. -/
def Ordered (ls : List Line) : Prop :=
  ls.Pairwise fun a b => a.number ≤ b.number

theorem pairwise_significantLines (source : String) :
    (significantLines source).Pairwise fun a b => a.number < b.number := by
  rw [significantLines, List.pairwise_filterMap]
  have hnumbers : ((Text.lines source.toList).zipIdx 1).Pairwise fun a b => a.2 < b.2 := by
    rw [← List.pairwise_map, List.zipIdx_map_snd]
    exact List.pairwise_lt_range'
  refine hnumbers.imp ?_
  rintro ⟨s, number⟩ ⟨t, number'⟩ hlt a ha b hb
  simp only at ha hb hlt
  split at ha <;> split at hb <;> cases ha <;> cases hb
  exact hlt

namespace Macro

theorem rest_complete {c : Collected} {m : Macro} : (c.complete m).rest = c.rest := by
  unfold Collected.complete
  split <;> rfl

theorem rest_extend {c : Collected} {m : Macro} (text : List Char) (more : Bool) :
    (c.extend m text more).rest = c.rest := by
  cases more with
  | true => rfl
  | false => exact rest_complete

theorem rest_step (c : Collected) (l : Line) : (c.step l).rest.Sublist (c.rest ++ [l]) := by
  have hkept : c.rest.Sublist (c.rest ++ [l]) := List.sublist_append_left _ _
  unfold Collected.step
  split
  next =>
    split
    next => rwa [rest_extend]
    next => exact hkept
  next =>
    split
    next =>
      split
      next => rwa [rest_extend]
      next => exact hkept
    next => exact List.Sublist.refl _

theorem rest_foldl {c : Collected} (ls : List Line) :
    (ls.foldl Collected.step c).rest.Sublist (c.rest ++ ls) := by
  induction ls generalizing c with
  | nil => rw [List.append_nil]; exact List.Sublist.refl _
  | cons l ls ih =>
    refine ih.trans ?_
    have hstep := (rest_step c l).append_right ls
    rwa [List.append_assoc] at hstep

/-- The lines outside definitions stand in their order. -/
theorem rest_collect (ls : List Line) : (collect ls).rest.Sublist ls := by
  have hfinish : ∀ c : Collected, c.finish.rest = c.rest := by
    intro c
    unfold Collected.finish
    split <;> rfl
  rw [collect, hfinish]
  exact rest_foldl ls

theorem number_of_mem_expandLine {ms : List Macro} {l l' : Line}
    (h : l' ∈ linesOf (expandLine ms l)) : l'.number = l.number := by
  unfold expandLine at h
  split at h
  next => rw [List.mem_singleton.mp h]
  next =>
    split at h
    next =>
      obtain ⟨text, -, rfl⟩ := List.mem_map.mp h
      rfl
    next => cases h

/-- The lines behind the macros stand in the order of the lines that they stand for. -/
theorem ordered_expand (source : String) : Ordered (expand source).lines := by
  rw [expand, expandLines]
  have hrest := (pairwise_significantLines source).sublist (rest_collect _)
  by_cases herrors : (collect (significantLines source)).errors = []
  · simp only [herrors, if_true, List.flatMap_map]
    refine List.pairwise_flatMap.mpr ⟨fun l _ => ?_, hrest.imp ?_⟩
    · refine List.pairwise_of_forall_mem_list fun a ha b hb => ?_
      rw [number_of_mem_expandLine ha, number_of_mem_expandLine hb]
    · intro l l' hlt a ha b hb
      rw [number_of_mem_expandLine ha, number_of_mem_expandLine hb]
      exact hlt.le
  · simp only [if_neg herrors]
    exact List.Pairwise.nil

end Macro

theorem Assembled.parts_of_error {a : Assembled} {es : List Error} (h : a.outcome = .error es) :
    a.image? = none ∧ a.binary? = none ∧ a.errors = es := by
  have himage : a.image? = none := by rw [image?, h]
  refine ⟨himage, ?_, by rw [errors, h]⟩
  rw [binary?, himage, Option.map_none]

section

variable {ls : List Line} {warnings : List String}

theorem outcome_of_outline (h : (Outline.ofLines ls).errors ≠ []) :
    (assembleLines ls warnings).outcome = .error (Outline.ofLines ls).errors := by
  rw [assembleLines, if_pos h]

theorem outcome_of_declarations (houtline : (Outline.ofLines ls).errors = [])
    (h : (scope ls).declarations.errors ≠ []) :
    (assembleLines ls warnings).outcome = .error (scope ls).declarations.errors := by
  rw [assembleLines, if_neg (not_not.mpr houtline)]
  simp only [scope] at h ⊢
  split
  next hnone _ => exact absurd hnone h
  next => rfl

theorem outcome_of_instructions (houtline : (Outline.ofLines ls).errors = [])
    (hdeclarations : (scope ls).declarations.errors = []) {e : Error}
    (h : (instructions (scope ls) (Outline.ofLines ls).code).1 = .error e) :
    (assembleLines ls warnings).outcome = .error [e] := by
  obtain ⟨entry, hentry⟩ := Declarations.entry_of_errors hdeclarations
  rw [assembleLines, if_neg (not_not.mpr houtline)]
  simp only [scope] at h hdeclarations
  simp only [hdeclarations, hentry, h]

theorem outcome_of_image (houtline : (Outline.ofLines ls).errors = [])
    (hdeclarations : (scope ls).declarations.errors = []) {entry : Nat}
    (hentry : (scope ls).declarations.entry = some entry) {is : List Instruction}
    (h : (instructions (scope ls) (Outline.ofLines ls).code).1 = .ok is) :
    (assembleLines ls warnings).outcome =
      .ok (image (scope ls).outline (scope ls).declarations entry is) :=
  Assembled.image?_eq_some_iff.mp (assembleLines_image?_eq_some_iff.mpr
    ⟨houtline, entry, is, hdeclarations, hentry, h, rfl⟩)

/-- The warnings so far do not matter. -/
theorem outcome_warnings (ls : List Line) (warnings warnings' : List String) :
    (assembleLines ls warnings).outcome = (assembleLines ls warnings').outcome := by
  unfold assembleLines
  simp only
  split
  next => rfl
  next =>
    split
    next => split <;> rfl
    next => rfl

end

namespace Phase

variable {source : String} {phase : Phase}

/-- The lines of code without an error in the outline are the lines with a mnemonic. -/
theorem findSome?_code {ls : List Line} (h : (Outline.ofLines ls).errors = []) :
    (Outline.ofLines ls).code.findSome? (scope ls).fault? =
      ls.findSome? fun l => l.code?.bind (scope ls).fault? := by
  rw [Outline.code_ofLines h, ← List.head?_filterMap, ← List.head?_filterMap, List.filterMap_filterMap]

theorem kind_of_reports {e : Error} (h : macros.Reports e) : e.kind = .malformedMacro := by
  obtain ⟨cause, line, hphase, rfl⟩ := h
  cases cause with
  | openStringInMacro | macroHeader | macroName | macroLine | macroLiteral | macroContinuation
  | macroEnd | macroTwice | macroUnknown => rfl
  | _ => simp [Cause.phases] at hphase

theorem reports_errors (source : String) (phase : Phase) :
    ∀ e ∈ phase.errors source, phase.Reports e := by
  cases phase with
  | macros => exact Macro.reports_expand source
  | outline => exact Outline.reports_ofLines _
  | declarations => exact Declarations.reports_ofOutline _
  | instructions =>
    intro e he
    obtain ⟨l, -, hl⟩ := List.mem_filterMap.mp he
    obtain ⟨c, -, hfault⟩ := Option.bind_eq_some_iff.mp hl
    obtain ⟨cause, hcause, rfl⟩ := Scope.fault?_eq_some_iff.mp hfault
    exact ⟨cause, c.line, Scope.phases_instruction hcause, rfl⟩

theorem report_of_ne (h : phase ≠ instructions) : phase.report source = phase.errors source := by
  cases phase with
  | instructions => exact absurd rfl h
  | _ => rfl

theorem report_ne_nil (h : phase.errors source ≠ []) : phase.report source ≠ [] := by
  obtain ⟨e, es, hes⟩ := List.exists_cons_of_ne_nil h
  cases phase with
  | instructions =>
    rw [report, hes]
    exact List.cons_ne_nil _ _
  | _ => exact h

theorem report_sublist : (phase.report source).Sublist (phase.errors source) := by
  cases phase with
  | instructions => exact List.take_sublist 1 _
  | _ => exact List.Sublist.refl _

/-- Either no phase finds anything, or one is the first to do so and its report is what is wrong. -/
theorem outcome_cases (source : String) :
    (∃ i, (assemble source).outcome = .ok i) ∧ (∀ phase, errors source phase = []) ∨
      ∃ phase, Stops source phase ∧ (assemble source).outcome = .error (phase.report source) := by
  unfold assemble
  simp only
  by_cases hmacros : (Macro.expand source).errors = []
  swap
  · rw [if_neg hmacros]
    exact .inr ⟨macros, ⟨hmacros, fun p hp => absurd hp List.not_mem_nil⟩, rfl⟩
  rw [if_pos hmacros]
  by_cases houtline : errors source outline = []
  swap
  · exact .inr ⟨outline, ⟨houtline, List.forall_mem_singleton.mpr hmacros⟩,
      outcome_of_outline houtline⟩
  by_cases hdeclarations : errors source declarations = []
  swap
  · refine .inr ⟨declarations, ⟨hdeclarations, ?_⟩, outcome_of_declarations houtline hdeclarations⟩
    exact List.forall_mem_cons.mpr ⟨hmacros, List.forall_mem_singleton.mpr houtline⟩
  have hfound := findSome?_code houtline
  have hhead : (errors source instructions).head? = _ := List.head?_filterMap
  cases hcode : (Assembly.instructions (scope (Macro.expand source).lines)
      (Outline.ofLines (Macro.expand source).lines).code).1 with
  | error e =>
    rw [Scope.instructions_eq_error_iff.mp hcode] at hfound
    rw [← hfound] at hhead
    obtain ⟨rest, hrest⟩ := List.head?_eq_some_iff.mp hhead
    refine .inr ⟨instructions, ⟨hrest ▸ List.cons_ne_nil _ _, ?_⟩, ?_⟩
    · exact List.forall_mem_cons.mpr ⟨hmacros, List.forall_mem_cons.mpr
        ⟨houtline, List.forall_mem_singleton.mpr hdeclarations⟩⟩
    · rw [outcome_of_instructions houtline hdeclarations hcode, report, hrest]
      rfl
  | ok is =>
    have hnone : errors source instructions = [] := by
      rw [← List.head?_eq_none_iff, hhead, ← hfound]
      by_contra hsome
      obtain ⟨e, he⟩ := Option.ne_none_iff_exists'.mp hsome
      rw [Scope.instructions_eq_error_iff.mpr he] at hcode
      cases hcode
    obtain ⟨entry, hentry⟩ := Declarations.entry_of_errors hdeclarations
    refine .inl ⟨⟨_, outcome_of_image houtline hdeclarations hentry hcode⟩, fun phase => ?_⟩
    cases phase with
    | macros => exact hmacros
    | outline => exact houtline
    | declarations => exact hdeclarations
    | instructions => exact hnone

/-- What the last phase reports is the error on the first line whose instruction cannot be built. -/
theorem exists_firstFault (h : report source instructions ≠ []) :
    ∃ e, report source instructions = [e] ∧ FirstFault (Macro.expand source).lines e := by
  have hhead : (errors source instructions).head? = _ := List.head?_filterMap
  cases herrors : errors source instructions with
  | nil =>
    rw [report, herrors] at h
    exact absurd rfl h
  | cons e rest =>
    rw [herrors] at hhead
    obtain ⟨front, l, back, hlines, hfault, hfront⟩ := List.findSome?_eq_some_iff.mp hhead.symm
    obtain ⟨c, hc, hfault⟩ := Option.bind_eq_some_iff.mp hfault
    obtain ⟨cause, hcause, rfl⟩ := Scope.fault?_eq_some_iff.mp hfault
    refine ⟨cause.onLine c.line, ?_, front, l, back, c, cause, hlines, hc, hcause, ?_, ?_⟩
    · rw [report, herrors]
      rfl
    · rw [Line.line_of_code? hc]
    · intro l' hl' c' hc'
      have hnone := hfront l' hl'
      rw [hc', Option.bind_some] at hnone
      exact Scope.fault?_eq_none_iff.mp hnone

end Phase

/-- A source text has an image exactly if it has no error, and then no phase finds anything. Otherwise
there is nothing to count, and the errors are all that the first phase finds that finds any, each for a
cause that this phase looks for; of the last phase there is one error, on the first of the lines whose
instruction cannot be built. The lines that the later phases see stand in the order of the source text,
and the warnings do not matter. -/
theorem errors_of_first_phase (source : String) :
    ((∃ bytes, (assemble source).binary? = some bytes) ∧ (assemble source).errors = [] ∧
        (∀ phase, Phase.errors source phase = []) ∨
      (assemble source).binary? = none ∧ (assemble source).errors ≠ [] ∧
        (assemble source).instructionCount = 0 ∧ (assemble source).byteCount = 0 ∧
        ∃ phase, Phase.Stops source phase ∧ (∀ e ∈ (assemble source).errors, phase.Reports e) ∧
          (phase = .macros → ∀ e ∈ (assemble source).errors, e.kind = .malformedMacro) ∧
          (phase ≠ .instructions → (assemble source).errors = phase.errors source) ∧
          (phase = .instructions → ∃ e, (assemble source).errors = [e] ∧
            Phase.FirstFault (Macro.expand source).lines e)) ∧
    Ordered (Macro.expand source).lines ∧
    ((Macro.expand source).errors = [] → ∀ warnings,
      (assemble source).outcome = (assembleLines (Macro.expand source).lines warnings).outcome) := by
  refine ⟨?_, Macro.ordered_expand source, fun hmacros warnings => ?_⟩
  · rcases Phase.outcome_cases source with ⟨⟨i, hi⟩, hnone⟩ | ⟨phase, hstops, houtcome⟩
    · have himage : (assemble source).image? = some i := Assembled.image?_eq_some_iff.mpr hi
      refine .inl ⟨⟨i.encode, ?_⟩, ?_, hnone⟩
      · rw [Assembled.binary?, himage]
        rfl
      · rw [Assembled.errors, hi]
    · obtain ⟨himage, hbinary, hreport⟩ := Assembled.parts_of_error houtcome
      have hne := Phase.report_ne_nil hstops.errors
      have hreports : ∀ e ∈ phase.report source, phase.Reports e := fun e he =>
        Phase.reports_errors source phase e (Phase.report_sublist.subset he)
      rw [hreport]
      refine .inr ⟨hbinary, hne, ?_, ?_, phase, hstops, hreports, ?_, Phase.report_of_ne, ?_⟩
      · rw [Assembled.instructionCount, himage]
      · rw [Assembled.byteCount, hbinary]
      · rintro rfl e he
        exact Phase.kind_of_reports (hreports e he)
      · rintro rfl
        exact Phase.exists_firstFault hne
  · have hlines : (assemble source).outcome =
        (assembleLines (Macro.expand source).lines (Macro.expand source).warnings).outcome := by
      simp only [assemble, hmacros, if_true]
    exact hlines.trans (outcome_warnings _ _ warnings)

end RegisterMachine.Assembly
