import Mathlib
import RegisterMachine.Proofs.Assembly.Declarations

namespace RegisterMachine.Assembly

/-- The phases of assembling. -/
inductive Phase where
  /-- Macros are replaced. -/
  | macros
  /-- The lines are told apart and labels are found. -/
  | outline
  /-- The directives are read. -/
  | declarations
  /-- The instructions are built. -/
  | instructions

/-- The phases that find something wrong for this cause. -/
def Cause.phases : Cause → List Phase
  | openStringInMacro | macroHeader _ | macroName _ | macroLine _ | macroLiteral _
  | macroContinuation _ | macroEnd _ | macroTwice _ | macroUnknown _ => [.macros]
  | openString | secondCode | codeArguments | directiveInCode _ | beforeCode _ | noCode
  | labelName _ | labelNotAlone _ | labelTwice _ | handlerTwice _ | mnemonic _ => [.outline]
  | initNotFirst | noInit | argumentCount .. | debugTwice | debugRange _ | constantName _
  | constantTwice _ | directive _ | notString _ | notFloat _ | constantRange .. => [.declarations]
  | labelUnknown _ => [.declarations, .instructions]
  | nameUnknown _ | operandCount .. | notRegister _ | unmarkedValue _ | valueRange _
  | numberRange _ => [.instructions]

namespace Phase

/-- The error is of those that the phase can find. -/
def Reports (phase : Phase) (e : Error) : Prop :=
  ∃ cause line, phase ∈ Cause.phases cause ∧ e = cause.onLine line

/-- A step of a phase finds one thing wrong at most. -/
def Adds (phase : Phase) (es es' : List Error) : Prop :=
  es' = es ∨ ∃ e, phase.Reports e ∧ es' = es ++ [e]

section

variable {phase : Phase} {es es' : List Error} {cause : Cause} {line : Nat}

theorem Adds.concat (h : phase ∈ cause.phases) : phase.Adds es (es ++ [cause.onLine line]) :=
  .inr ⟨_, ⟨cause, line, h, rfl⟩, rfl⟩

theorem Adds.reports (h : phase.Adds es es') (hes : ∀ e ∈ es, phase.Reports e) :
    ∀ e ∈ es', phase.Reports e := by
  rcases h with rfl | ⟨e, he, rfl⟩
  · exact hes
  · exact List.forall_mem_append.mpr ⟨hes, List.forall_mem_singleton.mpr he⟩

/-- What the steps of a phase find is of those things that the phase can find. -/
theorem reports_foldl {α β : Type} {step : α → β → α} {found : α → List Error}
    (hstep : ∀ a b, phase.Adds (found a) (found (step a b))) {a : α} {bs : List β}
    (h : ∀ e ∈ found a, phase.Reports e) : ∀ e ∈ found (bs.foldl step a), phase.Reports e := by
  induction bs generalizing a with
  | nil => exact h
  | cons b bs ih => exact ih ((hstep a b).reports h)

end

end Phase

namespace Macro

variable {name : String} {tokens : List String} {text : List Char} {cause : Cause}

theorem phases_bodyLine (h : bodyLine name tokens = .error cause) : .macros ∈ cause.phases := by
  unfold bodyLine at h
  split at h
  next literal =>
    cases hinner : unquote? literal with
    | none =>
      simp only [hinner] at h
      cases h
      exact List.mem_singleton_self _
    | some inner =>
      simp only [hinner] at h
      cases h
  next literal mark =>
    cases hinner : unquote? literal with
    | none =>
      simp only [hinner] at h
      cases h
      exact List.mem_singleton_self _
    | some inner =>
      simp only [hinner] at h
      obtain hnone | ⟨_, -, h⟩ := Except.bind_eq_error_iff.mp h
      · cases hnone
      · split at h <;> cases h
        exact List.mem_singleton_self _
  next =>
    cases h
    exact List.mem_singleton_self _

theorem phases_header (h : header text = .error cause) : .macros ∈ cause.phases := by
  unfold header at h
  split at h
  next =>
    cases h
    exact List.mem_singleton_self _
  next =>
    split at h
    next =>
      split at h
      next =>
        obtain hbody | ⟨_, -, h⟩ := Except.bind_eq_error_iff.mp h
        · exact phases_bodyLine hbody
        · cases h
      next =>
        cases h
        exact List.mem_singleton_self _
    next =>
      cases h
      exact List.mem_singleton_self _
  next =>
    cases h
    exact List.mem_singleton_self _

theorem phases_continued (h : continued name text = .error cause) : .macros ∈ cause.phases := by
  unfold continued at h
  split at h
  next =>
    cases h
    exact List.mem_singleton_self _
  next => exact phases_bodyLine h

namespace Collected

variable {c : Collected} {m : Macro}

theorem adds_complete : Phase.macros.Adds c.errors (c.complete m).errors := by
  unfold complete
  split
  next => exact .concat (List.mem_singleton_self _)
  next => exact .inl rfl

theorem adds_extend (text : List Char) (more : Bool) :
    Phase.macros.Adds c.errors (c.extend m text more).errors := by
  cases more with
  | true => exact .inl rfl
  | false => exact adds_complete

theorem adds_step (c : Collected) (l : Line) : Phase.macros.Adds c.errors (c.step l).errors := by
  unfold step
  split
  next =>
    split
    next => exact adds_extend _ _
    next hcontinued => exact .concat (phases_continued hcontinued)
  next =>
    split
    next =>
      split
      next => exact adds_extend _ _
      next hheader => exact .concat (phases_header hheader)
    next => exact .inl rfl

theorem adds_finish : Phase.macros.Adds c.errors c.finish.errors := by
  unfold finish
  split
  next => exact .concat (List.mem_singleton_self _)
  next => exact .inl rfl

end Collected

theorem reports_collect (ls : List Line) : ∀ e ∈ (collect ls).errors, Phase.macros.Reports e :=
  Collected.adds_finish.reports <|
    Phase.reports_foldl Collected.adds_step fun _ he => absurd he List.not_mem_nil

theorem reports_expand (source : String) :
    ∀ e ∈ (expand source).errors, Phase.macros.Reports e := by
  rw [expand, expandLines]
  by_cases herrors : (collect (significantLines source)).errors = []
  · simp only [herrors, if_true]
    intro e he
    obtain ⟨result, hresult, hsome⟩ := List.mem_filterMap.mp he
    obtain ⟨l, -, rfl⟩ := List.mem_map.mp hresult
    unfold expandLine at hsome
    split at hsome
    next => cases hsome
    next =>
      split at hsome
      next => cases hsome
      next =>
        cases hsome
        exact ⟨_, _, List.mem_singleton_self _, rfl⟩
  · simp only [if_neg herrors]
    exact reports_collect _

end Macro

namespace Outline

variable {o : Outline} {line : Nat} {head name : String} {arguments : List String}

theorem adds_addDirective : Phase.outline.Adds o.errors (o.addDirective line head arguments).errors := by
  unfold addDirective
  split
  next =>
    simp only
    split
    next => exact .concat (List.mem_singleton_self _)
    next =>
      split
      next => exact .inl rfl
      next => exact .concat (List.mem_singleton_self _)
  next =>
    split
    next => exact .concat (List.mem_singleton_self _)
    next => exact .inl rfl

theorem adds_addLabel : Phase.outline.Adds o.errors (o.addLabel line name arguments).errors := by
  unfold addLabel
  split
  next => exact .concat (List.mem_singleton_self _)
  split
  next => exact .concat (List.mem_singleton_self _)
  split
  next => exact .concat (List.mem_singleton_self _)
  simp only
  split
  next => exact .inl rfl
  next =>
    split
    next => exact .concat (List.mem_singleton_self _)
    next => exact .inl rfl

theorem adds_addTokens : Phase.outline.Adds o.errors (o.addTokens line head arguments).errors := by
  unfold addTokens
  split
  next => exact adds_addDirective
  split
  next => exact .concat (List.mem_singleton_self _)
  split
  next => exact adds_addLabel
  split
  next => exact .inl rfl
  next => exact .concat (List.mem_singleton_self _)

theorem adds_addLine (o : Outline) (l : Line) : Phase.outline.Adds o.errors (o.addLine l).errors := by
  unfold addLine
  split
  next => exact .concat (List.mem_singleton_self _)
  next => exact .inl rfl
  next => exact adds_addTokens

theorem adds_finish : Phase.outline.Adds o.errors o.finish.errors := by
  unfold finish
  split
  next => exact .inl rfl
  next => exact .concat (List.mem_singleton_self _)

theorem reports_ofLines (ls : List Line) : ∀ e ∈ (ofLines ls).errors, Phase.outline.Reports e :=
  adds_finish.reports <|
    Phase.reports_foldl adds_addLine fun _ he => absurd he List.not_mem_nil

end Outline

namespace Declarations

variable {o : Outline} {d d' : Declarations} {isFirst : Bool} {directive : Directive} {cause : Cause}

theorem phases_integer {low high : Int} {head text : String}
    (h : integer low high head text = .error cause) : .declarations ∈ cause.phases := by
  unfold integer at h
  split at h <;> cases h
  exact List.mem_singleton_self _

theorem phases_constant {head text : String} (h : constant head text = .error cause) :
    .declarations ∈ cause.phases := by
  unfold constant at h
  split at h
  case h_1 =>
    split at h <;> cases h
    exact List.mem_singleton_self _
  case h_2 =>
    split at h <;> cases h
    exact List.mem_singleton_self _
  case h_11 =>
    cases h
    exact List.mem_singleton_self _
  all_goals exact phases_integer (Except.map_eq_error_iff.mp h)

theorem phases_debugLevel {text : String} (h : debugLevel text = .error cause) :
    .declarations ∈ cause.phases := by
  unfold debugLevel at h
  split at h
  next =>
    split at h <;> cases h
    exact List.mem_singleton_self _
  next =>
    cases h
    exact List.mem_singleton_self _

theorem phases_setEntry {head : String} {arguments : List String}
    (h : d.setEntry o isFirst head arguments = .error cause) : .declarations ∈ cause.phases := by
  unfold setEntry at h
  split at h
  next =>
    cases h
    exact List.mem_singleton_self _
  next =>
    split at h
    next =>
      split at h <;> cases h
      exact List.mem_cons_self
    next =>
      cases h
      exact List.mem_singleton_self _

theorem phases_setDebug {head : String} {arguments : List String}
    (h : d.setDebug head arguments = .error cause) : .declarations ∈ cause.phases := by
  unfold setDebug at h
  split at h
  next =>
    split at h
    next =>
      cases h
      exact List.mem_singleton_self _
    next =>
      obtain hlevel | ⟨_, -, h⟩ := Except.bind_eq_error_iff.mp h
      · exact phases_debugLevel hlevel
      · cases h
  next =>
    cases h
    exact List.mem_singleton_self _

theorem phases_addConstant {head : String} {arguments : List String}
    (h : d.addConstant o head arguments = .error cause) : .declarations ∈ cause.phases := by
  unfold addConstant at h
  split at h
  next =>
    split at h
    next =>
      cases h
      exact List.mem_singleton_self _
    next =>
      obtain hvalue | ⟨_, -, h⟩ := Except.bind_eq_error_iff.mp h
      · exact phases_constant hvalue
      · split at h <;> cases h
        exact List.mem_singleton_self _
  next =>
    cases h
    exact List.mem_singleton_self _

theorem phases_add (h : d.add o isFirst directive = .error cause) :
    .declarations ∈ cause.phases := by
  unfold add at h
  split at h
  · exact phases_setEntry h
  · exact phases_setDebug h
  · exact phases_addConstant h

theorem errors_add (h : d.add o isFirst directive = .ok d') : d'.errors = d.errors := by
  by_cases hinit : directive.head = ".init"
  · obtain ⟨line, head, arguments⟩ := directive
    subst hinit
    change d.setEntry o isFirst ".init" arguments = _ at h
    unfold setEntry at h
    split at h
    next => cases h
    next =>
      split at h
      next => split at h <;> cases h; rfl
      next => cases h
  · rw [add_of_ne_init hinit] at h
    exact (add_frame h).2

theorem adds_step (o : Outline) (isFirst : Bool) (d : Declarations) (directive : Directive) :
    Phase.declarations.Adds d.errors (d.step o isFirst directive).errors := by
  unfold step
  split
  next hadd => exact .inl (errors_add hadd)
  next hadd => exact .concat (phases_add hadd)

theorem adds_finish : Phase.declarations.Adds d.errors d.finish.errors := by
  unfold finish
  split
  next hnone =>
    rw [hnone.2]
    exact .concat (List.mem_singleton_self _)
  next => exact .inl rfl

theorem reports_ofOutline (o : Outline) :
    ∀ e ∈ (ofOutline o).errors, Phase.declarations.Reports e := by
  refine adds_finish.reports ?_
  have hnone : ∀ e ∈ ({} : Declarations).errors, Phase.declarations.Reports e :=
    fun _ he => absurd he List.not_mem_nil
  split
  next => exact hnone
  next => exact Phase.reports_foldl (adds_step o false) ((adds_step o true _ _).reports hnone)

theorem entry_of_errors {o : Outline} (h : (ofOutline o).errors = []) :
    ∃ index, (ofOutline o).entry = some index := by
  obtain ⟨_, index, _, _, _, -, -, -, hof⟩ := exists_ofOutline h
  exact ⟨index, by rw [hof]⟩

end Declarations

namespace Scope

variable {s : Scope} {cause : Cause} {token : String}

theorem phases_operand {kind : OperandKind} (h : s.operand kind token = .error cause) :
    .instructions ∈ cause.phases := by
  have haddress : ∀ name, s.address name = .error cause → .instructions ∈ cause.phases := by
    intro name h
    unfold address at h
    split at h <;> cases h
    exact List.mem_singleton_self _
  have hsize : ∀ name, s.size name = .error cause → .instructions ∈ cause.phases := by
    intro name h
    unfold size at h
    split at h <;> cases h
    exact List.mem_singleton_self _
  cases kind with
  | register =>
    have hregister := Except.map_eq_error_iff.mp h
    unfold register at hregister
    split at hregister <;> cases hregister
    exact List.mem_singleton_self _
  | target =>
    have htarget := Except.map_eq_error_iff.mp h
    unfold target at htarget
    split at htarget <;> cases htarget
    exact List.mem_cons_of_mem _ List.mem_cons_self
  | immediate =>
    have hvalue := Except.map_eq_error_iff.mp h
    unfold value at hvalue
    split at hvalue
    next =>
      split at hvalue <;> cases hvalue
      exact List.mem_singleton_self _
    next => exact haddress _ hvalue
    next => exact hsize _ hvalue
    next =>
      cases hvalue
      exact List.mem_singleton_self _
  | number =>
    have hnumber := Except.map_eq_error_iff.mp h
    unfold number at hnumber
    simp only at hnumber
    split at hnumber <;> cases hnumber
    exact List.mem_singleton_self _

theorem phases_operands {kinds : List OperandKind} {tokens : List String}
    (h : s.operands kinds tokens = .error cause) : .instructions ∈ cause.phases := by
  induction kinds generalizing tokens with
  | nil => cases h
  | cons kind kinds ih =>
    cases tokens with
    | nil => cases h
    | cons token tokens =>
      rw [operands] at h
      obtain hoperand | ⟨_, -, h⟩ := Except.bind_eq_error_iff.mp h
      · exact phases_operand hoperand
      obtain hrest | ⟨_, -, h⟩ := Except.bind_eq_error_iff.mp h
      · exact ih hrest
      · cases h

theorem phases_instruction {l : CodeLine} (h : s.instruction l = .error cause) :
    .instructions ∈ cause.phases := by
  unfold instruction at h
  simp only at h
  split at h
  next =>
    obtain hoperands | ⟨_, -, h⟩ := Except.bind_eq_error_iff.mp h
    · exact phases_operands hoperands
    · split at h <;> cases h
      exact List.mem_singleton_self _
  next =>
    cases h
    exact List.mem_singleton_self _

end Scope

end RegisterMachine.Assembly
