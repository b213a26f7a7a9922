import Mathlib
import RegisterMachine.Proofs.Assembly.Lines
import RegisterMachine.Proofs.Assembly.Phases

namespace RegisterMachine.Assembly

/-- The line with another number. -/
def Line.renumber (f : Nat → Nat) (l : Line) : Line :=
  { l with number := f l.number }

@[simp] theorem Line.number_renumber (f : Nat → Nat) (l : Line) :
    (l.renumber f).number = f l.number := rfl

@[simp] theorem Line.text_renumber (f : Nat → Nat) (l : Line) : (l.renumber f).text = l.text := rfl

/-- The error on another line. -/
def Error.renumber (f : Nat → Nat) (e : Error) : Error :=
  { e with line := f e.line }

@[simp] theorem renumber_onLine (f : Nat → Nat) (cause : Cause) (line : Nat) :
    (cause.onLine line).renumber f = cause.onLine (f line) := rfl

section

variable {f : Nat → Nat}

namespace Macro

/-- The macro with another line for its definition. -/
def renumber (f : Nat → Nat) (m : Macro) : Macro :=
  { m with line := f m.line }

@[simp] theorem name_renumber (m : Macro) : (m.renumber f).name = m.name := rfl

@[simp] theorem line_renumber (m : Macro) : (m.renumber f).line = f m.line := rfl

namespace Collected

variable {c : Collected}

/-- The same with other numbers of lines. -/
def renumber (f : Nat → Nat) (c : Collected) : Collected where
  rest := c.rest.map (Line.renumber f)
  macros := c.macros.map (Macro.renumber f)
  errors := c.errors.map (Error.renumber f)
  pending := c.pending.map (Macro.renumber f)

theorem complete_renumber (m : Macro) :
    (c.renumber f).complete (m.renumber f) = (c.complete m).renumber f := by
  have hnames : (c.renumber f).macros.any (·.name == (m.renumber f).name) =
      c.macros.any (·.name == m.name) := by
    rw [renumber, List.any_map]
    rfl
  rw [complete, complete, hnames]
  split
  next => simp [renumber]
  next => simp [renumber, Macro.renumber]

theorem extend_renumber (m : Macro) (text : List Char) (more : Bool) :
    (c.renumber f).extend (m.renumber f) text more = (c.extend m text more).renumber f := by
  cases more with
  | true => rfl
  | false => exact complete_renumber { m with body := m.body ++ [text] }

theorem step_renumber (c : Collected) (l : Line) :
    (c.renumber f).step (l.renumber f) = (c.step l).renumber f := by
  have hpending : (c.renumber f).pending = c.pending.map (Macro.renumber f) := rfl
  unfold step
  rw [hpending]
  cases c.pending with
  | some m =>
    simp only [Option.map_some, Macro.name_renumber, Line.text_renumber]
    cases continued m.name l.text with
    | ok found => exact extend_renumber m _ _
    | error cause => simp [renumber]
  | none =>
    by_cases hkeyword : keyword.toList.isPrefixOf l.text = true
    · simp only [Option.map_none, hkeyword, if_true, Line.text_renumber]
      cases header l.text with
      | ok found => exact extend_renumber ⟨found.1, [], l.number⟩ _ _
      | error cause => simp [renumber]
    · have hkeyword' : ¬ keyword.toList.isPrefixOf (l.renumber f).text = true := hkeyword
      simp only [Option.map_none, hkeyword', hkeyword]
      simp [renumber]

theorem finish_renumber : (c.renumber f).finish = c.finish.renumber f := by
  have hpending : (c.renumber f).pending = c.pending.map (Macro.renumber f) := rfl
  unfold finish
  rw [hpending]
  cases c.pending with
  | some m => simp [renumber]
  | none => rfl

end Collected

theorem collect_renumber (ls : List Line) :
    collect (ls.map (Line.renumber f)) = (collect ls).renumber f := by
  have hfold : ls.foldl (fun c l => c.step (l.renumber f)) (Collected.renumber f {}) =
      (ls.foldl Collected.step {}).renumber f :=
    List.foldl_hom (Collected.renumber f) Collected.step_renumber
  rw [collect, collect, List.foldl_map, ← Collected.finish_renumber, ← hfold]
  rfl

theorem expandLine_renumber (ms : List Macro) (l : Line) :
    linesOf (expandLine (ms.map (Macro.renumber f)) (l.renumber f)) =
        (linesOf (expandLine ms l)).map (Line.renumber f) ∧
      errorOf? (expandLine (ms.map (Macro.renumber f)) (l.renumber f)) =
        (errorOf? (expandLine ms l)).map (Error.renumber f) := by
  unfold expandLine
  rw [Line.text_renumber]
  cases invoked? l.text with
  | none => exact ⟨rfl, rfl⟩
  | some name =>
    -- macros are looked up by their names, which stay
    have hfind : (ms.map (Macro.renumber f)).find? (·.name == name) =
        (ms.find? (·.name == name)).map (Macro.renumber f) := by
      rw [List.find?_map]
      rfl
    simp only [hfind]
    cases ms.find? (·.name == name) with
    | none => exact ⟨rfl, rfl⟩
    | some m =>
      refine ⟨?_, rfl⟩
      simp only [Option.map_some, linesOf, List.map_map]
      rfl

/-- The macros are replaced by the same lines, with other numbers. -/
theorem expandLines_renumber (ls : List Line) :
    (expandLines (ls.map (Line.renumber f))).lines = (expandLines ls).lines.map (Line.renumber f) ∧
      (expandLines (ls.map (Line.renumber f))).errors =
        (expandLines ls).errors.map (Error.renumber f) := by
  have herrors : ((collect ls).renumber f).errors = [] ↔ (collect ls).errors = [] :=
    List.map_eq_nil_iff
  rw [expandLines, expandLines, collect_renumber]
  simp only [herrors]
  split
  next =>
    have hlines := fun l => (expandLine_renumber (f := f) (collect ls).macros l).1
    have hfound := fun l => (expandLine_renumber (f := f) (collect ls).macros l).2
    simp only [Collected.renumber, List.map_map, List.flatMap_map, List.filterMap_map,
      List.map_flatMap, List.map_filterMap, Function.comp_def, hlines, hfound]
    exact ⟨trivial, trivial⟩
  next => exact ⟨rfl, rfl⟩

end Macro

/-- The directive on another line. -/
def Directive.renumber (f : Nat → Nat) (d : Directive) : Directive :=
  { d with line := f d.line }

/-- The line of code with another number. -/
def CodeLine.renumber (f : Nat → Nat) (l : CodeLine) : CodeLine :=
  { l with line := f l.line }

namespace Outline

variable {o : Outline}

/-- The same with other numbers of lines. -/
def renumber (f : Nat → Nat) (o : Outline) : Outline :=
  { o with
    directives := o.directives.map (Directive.renumber f)
    code := o.code.map (CodeLine.renumber f)
    errors := o.errors.map (Error.renumber f) }

theorem addError_renumber (line : Nat) (cause : Cause) :
    (o.renumber f).addError (f line) cause = (o.addError line cause).renumber f := by
  simp [addError, renumber]

theorem addDirective_renumber (line : Nat) (head : String) (arguments : List String) :
    (o.renumber f).addDirective (f line) head arguments =
      (o.addDirective line head arguments).renumber f := by
  have hin : (o.renumber f).inCode = o.inCode := rfl
  have hstart : { o.renumber f with inCode := true } = { o with inCode := true }.renumber f := rfl
  unfold addDirective
  simp only [hin, hstart, addError_renumber]
  split
  next =>
    split
    next => rfl
    next => split <;> rfl
  next =>
    split
    next => rfl
    next => simp [renumber, Directive.renumber]

theorem addLabel_renumber (line : Nat) (name : String) (arguments : List String) :
    (o.renumber f).addLabel (f line) name arguments = (o.addLabel line name arguments).renumber f := by
  have hlabels : (o.renumber f).labels = o.labels := rfl
  have hlength : (o.renumber f).code.length = o.code.length := List.length_map _
  let bound : Outline := { o with labels := o.labels ++ [⟨name, o.code.length⟩] }
  have hbound : ({ o.renumber f with labels := o.labels ++ [⟨name, o.code.length⟩] } : Outline) =
    bound.renumber f := rfl
  have hhandlers : (o.renumber f).handlers = o.handlers := rfl
  unfold addLabel
  simp only [hlabels, hlength, hbound, addError_renumber]
  split
  next => rfl
  split
  next => rfl
  split
  next => rfl
  split
  next => rfl
  next id hid =>
    rw [hhandlers]
    split <;> rfl

theorem addTokens_renumber (line : Nat) (head : String) (arguments : List String) :
    (o.renumber f).addTokens (f line) head arguments = (o.addTokens line head arguments).renumber f := by
  have hin : (o.renumber f).inCode = o.inCode := rfl
  unfold addTokens
  simp only [hin, addError_renumber, addDirective_renumber, addLabel_renumber]
  split
  next => rfl
  split
  next => rfl
  split
  next => rfl
  split
  next => simp [renumber, CodeLine.renumber]
  next => rfl

theorem addLine_renumber (o : Outline) (l : Line) :
    (o.renumber f).addLine (l.renumber f) = (o.addLine l).renumber f := by
  unfold addLine
  simp only [Line.text_renumber, Line.number_renumber, addError_renumber, addTokens_renumber]
  split <;> rfl

theorem finish_renumber (hf : f 0 = 0) : (o.renumber f).finish = o.finish.renumber f := by
  have hin : (o.renumber f).inCode = o.inCode := rfl
  have hwhole := addError_renumber (f := f) (o := o) 0 .noCode
  rw [hf] at hwhole
  unfold finish
  rw [hin, hwhole]
  split <;> rfl

/-- The outline has the same parts, on lines with other numbers. -/
theorem ofLines_renumber (hf : f 0 = 0) (ls : List Line) :
    ofLines (ls.map (Line.renumber f)) = (ofLines ls).renumber f := by
  have hfold : ls.foldl (fun o l => o.addLine (l.renumber f)) (renumber f {}) =
      (ls.foldl addLine {}).renumber f :=
    List.foldl_hom (renumber f) addLine_renumber
  rw [ofLines, ofLines, List.foldl_map, ← finish_renumber hf, ← hfold]
  rfl

end Outline

namespace Declarations

variable {o : Outline} {d : Declarations}

/-- The same with errors on other lines. -/
def renumber (f : Nat → Nat) (d : Declarations) : Declarations :=
  { d with errors := d.errors.map (Error.renumber f) }

theorem setEntry_renumber (isFirst : Bool) (head : String) (arguments : List String) :
    (d.renumber f).setEntry (o.renumber f) isFirst head arguments =
      renumber f <$> d.setEntry o isFirst head arguments := by
  have hlabel : ∀ name, (o.renumber f).label? name = o.label? name := fun name => rfl
  unfold setEntry
  simp only [hlabel]
  split
  next => rfl
  split
  next => split <;> rfl
  next => rfl

theorem setDebug_renumber (head : String) (arguments : List String) :
    (d.renumber f).setDebug head arguments = renumber f <$> d.setDebug head arguments := by
  have hdebug : (d.renumber f).debug = d.debug := rfl
  unfold setDebug
  rw [hdebug]
  split
  next argument =>
    split
    next => rfl
    next => cases debugLevel argument <;> rfl
  next => rfl

theorem addConstant_renumber (head : String) (arguments : List String) :
    (d.renumber f).addConstant (o.renumber f) head arguments =
      renumber f <$> d.addConstant o head arguments := by
  have hlabel : ∀ name, (o.renumber f).label? name = o.label? name := fun name => rfl
  have hconstants : (d.renumber f).constants = d.constants := rfl
  unfold addConstant
  simp only [hlabel, hconstants]
  split
  next name text =>
    split
    next => rfl
    next =>
      cases constant head text with
      | error cause => rfl
      | ok value =>
        simp only [bind, Except.bind]
        split <;> rfl
  next => rfl

theorem add_renumber (isFirst : Bool) (directive : Directive) :
    (d.renumber f).add (o.renumber f) isFirst (directive.renumber f) =
      renumber f <$> d.add o isFirst directive := by
  have hhead : (directive.renumber f).head = directive.head := rfl
  have harguments : (directive.renumber f).arguments = directive.arguments := rfl
  unfold add
  rw [hhead, harguments]
  split
  next => exact setEntry_renumber ..
  next => exact setDebug_renumber ..
  next => exact addConstant_renumber ..

theorem step_renumber (isFirst : Bool) (directive : Directive) :
    (d.renumber f).step (o.renumber f) isFirst (directive.renumber f) =
      (d.step o isFirst directive).renumber f := by
  unfold step
  rw [add_renumber]
  cases d.add o isFirst directive with
  | ok d' => rfl
  | error cause => simp [renumber, Directive.renumber, Functor.map, Except.map]

theorem finish_renumber (hf : f 0 = 0) : (d.renumber f).finish = d.finish.renumber f := by
  have hentry : (d.renumber f).entry = d.entry := rfl
  have herrors : (d.renumber f).errors = [] ↔ d.errors = [] := List.map_eq_nil_iff
  unfold finish
  simp only [hentry, herrors]
  split
  next => simp [renumber, hf]
  next => rfl

/-- The directives declare the same. -/
theorem ofOutline_renumber (hf : f 0 = 0) (o : Outline) :
    ofOutline (o.renumber f) = (ofOutline o).renumber f := by
  have hdirectives : (o.renumber f).directives = o.directives.map (Directive.renumber f) := rfl
  rw [ofOutline, ofOutline, ← finish_renumber hf, hdirectives]
  cases o.directives with
  | nil => rfl
  | cons first rest =>
    have hfold : ∀ d : Declarations, rest.foldl
          (fun d directive => d.step (o.renumber f) false (directive.renumber f)) (d.renumber f) =
        (rest.foldl (fun d => d.step o false) d).renumber f :=
      fun d => List.foldl_hom (renumber f) fun d directive => step_renumber false directive
    simp only [List.map_cons, List.foldl_map]
    rw [← hfold, ← step_renumber]
    rfl

end Declarations

namespace Scope

variable {s : Scope}

/-- The same with other numbers of lines. -/
def renumber (f : Nat → Nat) (s : Scope) : Scope :=
  ⟨s.outline.renumber f, s.declarations.renumber f⟩

theorem operand_renumber (kind : OperandKind) (token : String) :
    (s.renumber f).operand kind token = s.operand kind token := by
  cases kind <;> rfl

theorem operands_renumber (kinds : List OperandKind) (tokens : List String) :
    (s.renumber f).operands kinds tokens = s.operands kinds tokens := by
  induction kinds generalizing tokens with
  | nil => rfl
  | cons kind kinds ih =>
    cases tokens with
    | nil => rfl
    | cons token tokens => rw [operands, operands, operand_renumber, ih]

theorem instruction_renumber (l : CodeLine) :
    (s.renumber f).instruction (l.renumber f) = s.instruction l := by
  have hopcode : (l.renumber f).opcode = l.opcode := rfl
  have hoperands : (l.renumber f).operands = l.operands := rfl
  rw [instruction, instruction, hopcode, hoperands, operands_renumber]

/-- The lines of code stand for the same instructions. -/
theorem instructions_renumber (ls : List CodeLine) :
    (instructions (s.renumber f) (ls.map (CodeLine.renumber f))).1 =
      (instructions s ls).1.mapError (Error.renumber f) := by
  induction ls with
  | nil => rfl
  | cons l ls ih =>
    rw [List.map_cons, instructions, instructions, instruction_renumber]
    cases s.instruction l with
    | error cause => rfl
    | ok i =>
      simp only [ih]
      cases (instructions s ls).1 <;> rfl

end Scope

theorem scope_renumber (hf : f 0 = 0) (ls : List Line) :
    scope (ls.map (Line.renumber f)) = (scope ls).renumber f := by
  rw [scope, Outline.ofLines_renumber hf, Declarations.ofOutline_renumber hf]
  rfl

/-- Lines with other numbers make the same image, or the same errors on other lines. -/
theorem outcome_assembleLines_renumber (hf : f 0 = 0) (ls : List Line)
    (warnings warnings' : List String) :
    (assembleLines (ls.map (Line.renumber f)) warnings').outcome =
      (assembleLines ls warnings).outcome.mapError (List.map (Error.renumber f)) := by
  have houtline' : (Outline.ofLines (ls.map (Line.renumber f))).errors =
      (Outline.ofLines ls).errors.map (Error.renumber f) := by
    rw [Outline.ofLines_renumber hf]
    rfl
  by_cases houtline : (Outline.ofLines ls).errors = []
  swap
  · rw [outcome_of_outline houtline, outcome_of_outline, houtline', Except.mapError]
    rwa [houtline', Ne, List.map_eq_nil_iff]
  rw [houtline, List.map_nil] at houtline'
  have hscope := scope_renumber hf ls
  have hdeclarations' : (scope (ls.map (Line.renumber f))).declarations.errors =
      (scope ls).declarations.errors.map (Error.renumber f) := by
    rw [hscope]
    rfl
  by_cases hdeclarations : (scope ls).declarations.errors = []
  swap
  · rw [outcome_of_declarations houtline hdeclarations, outcome_of_declarations houtline',
      hdeclarations', Except.mapError]
    rwa [hdeclarations', Ne, List.map_eq_nil_iff]
  rw [hdeclarations, List.map_nil] at hdeclarations'
  obtain ⟨entry, hentry⟩ := Declarations.entry_of_errors hdeclarations
  have hentry' : (scope (ls.map (Line.renumber f))).declarations.entry = some entry := by
    rw [hscope]
    exact hentry
  have hcode := Scope.instructions_renumber (f := f) (s := scope ls) (Outline.ofLines ls).code
  have hlines : (Outline.ofLines (ls.map (Line.renumber f))).code =
      (Outline.ofLines ls).code.map (CodeLine.renumber f) := by
    rw [Outline.ofLines_renumber hf]
    rfl
  rw [← hscope, ← hlines] at hcode
  cases hfound : (instructions (scope ls) (Outline.ofLines ls).code).1 with
  | error e =>
    rw [hfound] at hcode
    rw [outcome_of_instructions houtline hdeclarations hfound,
      outcome_of_instructions houtline' hdeclarations' hcode]
    rfl
  | ok is =>
    rw [hfound] at hcode
    rw [outcome_of_image houtline hdeclarations hentry hfound,
      outcome_of_image houtline' hdeclarations' hentry' hcode, hscope]
    rfl

/-- What becomes of the lines of a source text. -/
def outcome (ls : List Line) : Except (List Error) Image :=
  if (Macro.expandLines ls).errors = [] then
    (assembleLines (Macro.expandLines ls).lines (Macro.expandLines ls).warnings).outcome
  else .error (Macro.expandLines ls).errors

theorem outcome_significantLines (source : String) :
    (assemble source).outcome = outcome (significantLines source) := by
  rw [assemble, outcome, Macro.expand]
  split <;> rfl

theorem outcome_renumber (hf : f 0 = 0) (ls : List Line) :
    outcome (ls.map (Line.renumber f)) =
      (outcome ls).mapError (List.map (Error.renumber f)) := by
  obtain ⟨hlines, herrors⟩ := Macro.expandLines_renumber (f := f) ls
  unfold outcome
  simp only [hlines, herrors, List.map_eq_nil_iff]
  split
  next => exact outcome_assembleLines_renumber hf _ _ _
  next => rfl

end

theorem errors_ne_nil_of_error {source : String} {es : List Error}
    (h : (assemble source).outcome = .error es) : (assemble source).errors ≠ [] := by
  rcases Phase.outcome_cases source with ⟨⟨i, hi⟩, -⟩ | ⟨phase, hstops, hreport⟩
  · rw [hi] at h
    cases h
  · rw [(Assembled.parts_of_error hreport).2.2]
    exact Phase.report_ne_nil hstops.errors

/-- The texts on the lines from the first on. -/
def numbered (texts : List (List Char)) : List Line :=
  (texts.zipIdx 1).map fun (text, number) => ⟨number, text⟩

/-- The number of a line among the significant ones, counted from one, is taken to its number in the
source text. -/
def numberIn (source : String) (n : Nat) : Nat :=
  if n = 0 then 0 else ((significantLines source)[n - 1]?.map Line.number).getD 0

/-- The number of the line at a place among some lines; the whole of them keeps its number. -/
def numberAt (ls : List Line) (place : Nat) : Nat :=
  if place = 0 then 0 else (ls[place - 1]?.map Line.number).getD 0

theorem numbered_numberAt (ls : List Line) :
    (numbered (ls.map Line.text)).map (Line.renumber (numberAt ls)) = ls := by
  refine List.ext_getElem? fun i => ?_
  simp only [numbered, List.getElem?_map, List.getElem?_zipIdx, Option.map_map, Function.comp_def]
  cases h : ls[i]? with
  | none => rfl
  | some l => simp [Line.renumber, numberAt, h]

theorem numbered_renumber (source : String) :
    (numbered (significant (Text.lines source.toList))).map (Line.renumber (numberIn source)) =
      significantLines source := by
  rw [← text_significantLines]
  exact numbered_numberAt (significantLines source)

/-- The numbers of lines in two source texts that stand at the same place among the significant ones;
zero, the source text as a whole, stands for itself. -/
inductive SamePlace (source source' : String) : Nat → Nat → Prop
  | whole : SamePlace source source' 0 0
  | line {i : Nat} {l l' : Line} : (significantLines source)[i]? = some l →
      (significantLines source')[i]? = some l' → SamePlace source source' l.number l'.number

/-- The errors are the same, but for the numbers of their lines. -/
structure SameError (source source' : String) (e e' : Error) : Prop where
  kind : e.kind = e'.kind
  detail : e.detail = e'.detail
  line : SamePlace source source' e.line e'.line

theorem samePlace_numberIn {source source' : String}
    (h : significant (Text.lines source.toList) = significant (Text.lines source'.toList)) (n : Nat) :
    SamePlace source source' (numberIn source n) (numberIn source' n) := by
  rw [← text_significantLines, ← text_significantLines] at h
  have hlength := congrArg List.length h
  rw [List.length_map, List.length_map] at hlength
  cases n with
  | zero => exact .whole
  | succ i =>
    rw [numberIn, numberIn, if_neg i.succ_ne_zero, if_neg i.succ_ne_zero, Nat.add_sub_cancel]
    by_cases hi : i < (significantLines source).length
    · have hi' : i < (significantLines source').length := hlength ▸ hi
      rw [List.getElem?_eq_getElem hi, List.getElem?_eq_getElem hi']
      exact .line (List.getElem?_eq_getElem hi) (List.getElem?_eq_getElem hi')
    · rw [List.getElem?_eq_none (not_lt.mp hi), List.getElem?_eq_none (hlength ▸ not_lt.mp hi)]
      exact .whole

/-- Two source texts that only differ in blank lines, in comments and in the blanks around the text
of their lines have the same binary, or both have none and the same errors, on the lines that
correspond to each other. -/
theorem layout_immaterial {source source' : String}
    (h : significant (Text.lines source.toList) = significant (Text.lines source'.toList)) :
    (∃ bytes, (assemble source).binary? = some bytes ∧ (assemble source').binary? = some bytes) ∨
      (assemble source).binary? = none ∧ (assemble source').binary? = none ∧
        (assemble source).errors ≠ [] ∧
        List.Forall₂ (SameError source source') (assemble source).errors (assemble source').errors := by
  -- Each source text is its significant lines with other numbers, and these lines are the same.
  have hnormal : ∀ text : String, (assemble text).outcome =
      (outcome (numbered (significant (Text.lines text.toList)))).mapError
        (List.map (Error.renumber (numberIn text))) := by
    intro text
    rw [outcome_significantLines, ← outcome_renumber rfl, numbered_renumber]
  have hsource := hnormal source
  have hsource' := hnormal source'
  rw [← h] at hsource'
  cases hcommon : outcome (numbered (significant (Text.lines source.toList))) with
  | ok i =>
    rw [hcommon] at hsource hsource'
    refine .inl ⟨i.encode, ?_, ?_⟩
    · rw [Assembled.binary?, Assembled.image?_eq_some_iff.mpr hsource, Option.map_some]
    · rw [Assembled.binary?, Assembled.image?_eq_some_iff.mpr hsource', Option.map_some]
  | error es =>
    rw [hcommon] at hsource hsource'
    obtain ⟨-, hbinary, herrors⟩ := Assembled.parts_of_error hsource
    obtain ⟨-, hbinary', herrors'⟩ := Assembled.parts_of_error hsource'
    refine .inr ⟨hbinary, hbinary', errors_ne_nil_of_error hsource, ?_⟩
    rw [herrors, herrors', List.forall₂_map_left_iff, List.forall₂_map_right_iff]
    exact List.forall₂_same.mpr fun e _ => ⟨rfl, rfl, samePlace_numberIn h e.line⟩

/-- A macro of two lines with blank lines and comments before, inside and behind its definition. -/
theorem layout_immaterial_macro :
    let source := "#macro TWO \"halt\" \\\n\"stop\"\n.code\n#TWO"
    let source' := "; two\n\n#macro TWO \"halt\" \\ ; first\n\n  \"stop\"\r\n\t.code ; here\n\n #TWO \n"
    significant (Text.lines source.toList) = significant (Text.lines source'.toList) ∧
      (assemble source).errors = [(Cause.mnemonic "halt").onLine 4, (Cause.mnemonic "stop").onLine 4] ∧
      (assemble source').errors = [(Cause.mnemonic "halt").onLine 8, (Cause.mnemonic "stop").onLine 8] ∧
      List.Forall₂ (SameError source source') (assemble source).errors (assemble source').errors := by
  intro source source'
  have h : significant (Text.lines source.toList) = significant (Text.lines source'.toList) := by
    decide +kernel
  refine ⟨h, by decide +kernel, by decide +kernel, ?_⟩
  rcases layout_immaterial h with ⟨bytes, hbytes, -⟩ | ⟨-, -, -, herrors⟩
  · have hnone : (assemble source).binary? = none := by decide +kernel
    rw [hnone] at hbytes
    cases hbytes
  · exact herrors

end RegisterMachine.Assembly
