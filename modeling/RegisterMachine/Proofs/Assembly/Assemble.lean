import Mathlib
import RegisterMachine.Proofs.Assembly.Operand

namespace RegisterMachine.Assembly

namespace Assembled

theorem succeeded_iff {a : Assembled} : a.succeeded ↔ ∃ image, a.image? = some image := by
  rw [succeeded, Option.isSome_iff_exists]

theorem image?_eq_some_iff {a : Assembled} {image : Image} :
    a.image? = some image ↔ a.outcome = .ok image := by
  unfold image?
  cases a.outcome <;> simp

end Assembled

/-- What the names and operands of lines are looked up in. -/
def scope (ls : List Line) : Scope :=
  ⟨Outline.ofLines ls, Declarations.ofOutline (Outline.ofLines ls)⟩

/-- Lines become an image if no phase finds an error. -/
theorem assembleLines_image?_eq_some_iff {ls : List Line} {warnings : List String} {i : Image} :
    (assembleLines ls warnings).image? = some i ↔
      (Outline.ofLines ls).errors = [] ∧
      ∃ entry is, (scope ls).declarations.errors = [] ∧ (scope ls).declarations.entry = some entry ∧
        (instructions (scope ls) (Outline.ofLines ls).code).1 = .ok is ∧
        image (scope ls).outline (scope ls).declarations entry is = i := by
  rw [Assembled.image?_eq_some_iff, assembleLines]
  by_cases herrors : (Outline.ofLines ls).errors = []
  · rw [if_neg (not_not.mpr herrors)]
    simp only [herrors, true_and, scope]
    cases (Declarations.ofOutline (Outline.ofLines ls)).errors with
    | cons e es => simp
    | nil =>
      cases (Declarations.ofOutline (Outline.ofLines ls)).entry with
      | none => simp
      | some entry =>
        rcases instructions ⟨Outline.ofLines ls, Declarations.ofOutline (Outline.ofLines ls)⟩
          (Outline.ofLines ls).code with ⟨_ | is, moves⟩
        · simp
        · simp
  · simp [herrors]

theorem assemble_image?_eq_some_iff {source : String} {i : Image} :
    (assemble source).image? = some i ↔ (Macro.expand source).errors = [] ∧
      (assembleLines (Macro.expand source).lines (Macro.expand source).warnings).image? = some i := by
  unfold assemble
  by_cases herrors : (Macro.expand source).errors = []
  · simp [herrors]
  · simp [herrors, Assembled.image?]

theorem exists_assembleLines_of_errors {ls : List Line} {warnings : List String}
    (h : (assembleLines ls warnings).errors = []) :
    ∃ i, (assembleLines ls warnings).image? = some i := by
  simp only [Assembled.image?_eq_some_iff]
  revert h
  unfold assembleLines
  by_cases herrors : (Outline.ofLines ls).errors = []
  · rw [if_neg (not_not.mpr herrors)]
    cases hdeclarations : (Declarations.ofOutline (Outline.ofLines ls)).errors with
    | cons e es => simp [hdeclarations, Assembled.errors]
    | nil =>
      obtain ⟨name, index, ds, level, cs, -, -, -, hof⟩ :=
        Declarations.exists_ofOutline hdeclarations
      simp only [hof]
      rcases instructions ⟨Outline.ofLines ls, { entry := some index, debug := level, constants := cs }⟩
        (Outline.ofLines ls).code with ⟨_ | is, moves⟩
      · simp [Assembled.errors]
      · simp
  · rw [if_pos herrors]
    exact fun h => absurd h herrors

/-- A source text without an error has an image. -/
theorem exists_assemble_of_errors {source : String} (h : (assemble source).errors = []) :
    ∃ i, (assemble source).image? = some i := by
  unfold assemble at h ⊢
  by_cases herrors : (Macro.expand source).errors = []
  · simp only [if_pos herrors] at h ⊢
    exact exists_assembleLines_of_errors h
  · simp only [if_neg herrors] at h
    exact absurd h herrors

/-- The phases before the last one find no error in these lines, and find the program in them, which
starts at this index. -/
structure Analysis (ls : List Line) (p : Source) (index : Nat) : Prop where
  rows : Rows ls p.rows
  errors : (Outline.ofLines ls).errors = []
  shows : ({} : Outline).Extends ([".init", p.entry] :: p.declarations.map Declaration.tokens) p.code
    (Outline.ofLines ls)
  admits : ({} : Outline).Admits p.code
  entry : (Outline.ofLines ls).label? p.entry = some index
  declares : ∃ level cs, Declares (Outline.ofLines ls) p.declarations level cs ∧
    (scope ls).declarations = { entry := some index, debug := level, constants := cs }

theorem exists_analysis {ls : List Line} (herrors : (Outline.ofLines ls).errors = [])
    (hdeclarations : (scope ls).declarations.errors = []) : ∃ p index, Analysis ls p index := by
  obtain ⟨ds, code, hrows, hds, hadmits⟩ := Outline.exists_rows rfl Outline.admits_nil herrors
  obtain ⟨-, hshows⟩ := Outline.extends_rows rfl rfl hrows hds hadmits
  obtain ⟨name, index, declarations, level, cs, htokens, hindex, hdeclares, hof⟩ :=
    Declarations.exists_ofOutline hdeclarations
  have hdirectives : ds = [".init", name] :: declarations.map Declaration.tokens :=
    hshows.directives.symm.trans htokens
  subst hdirectives
  exact ⟨⟨name, declarations, code⟩, index, hrows, herrors, hshows, hadmits, hindex, level, cs,
    hdeclares, hof⟩

theorem analysis_of_wellFormed {ls : List Line} {p : Source} (hrows : Rows ls p.rows)
    (hp : p.WellFormed) : ∃ index, Analysis ls p index := by
  have hdirectives : ∀ d ∈ [".init", p.entry] :: p.declarations.map Declaration.tokens,
      IsDirective d := by
    rw [List.forall_mem_cons]
    refine ⟨isDirective_init p.entry, fun d hd => ?_⟩
    obtain ⟨declaration, -, rfl⟩ := List.mem_map.mp hd
    exact isDirective_declaration declaration
  have hadmits := (Outline.admits_iff p).mpr ⟨hp.label_name, hp.labels_nodup, hp.handlers⟩
  have hlines := Outline.extends_rows (o := {}) rfl rfl hrows hdirectives hadmits
  obtain ⟨herrors, hshows⟩ := hlines
  have hlabels : (Outline.ofLines ls).labels = p.labels := hshows.labels
  have hentry : (Outline.ofLines ls).label? p.entry ≠ none := fun hnone =>
    (label?_eq_none_iff hlabels).mp hnone hp.entry
  obtain ⟨index, hindex⟩ := Option.ne_none_iff_exists'.mp hentry
  have hname : ∀ c ∈ p.constants, isIdentifier c.name.toList ∧
      (Outline.ofLines ls).label? c.name = none := fun c hc =>
    ⟨hp.constant_name c hc, (label?_eq_none_iff hlabels).mpr (hp.constant_label c hc)⟩
  obtain ⟨level, cs, hdeclares⟩ := Declares.exists_of hp.levels_length hp.level hname
    hp.constant_value hp.constants_nodup
  exact ⟨index, hrows, herrors, hshows, hadmits, hindex, level, cs, hdeclares,
    Declarations.ofOutline_of_declares hshows.directives hindex hdeclares⟩

theorem exists_operands {p : Source} {kinds : List OperandKind} {tokens : List String}
    (h : List.Forall₂ (fun kind token => ∃ o : Operand, o.kind = kind ∧ p.Resolves token o) kinds
      tokens) : ∃ os, os.map Operand.kind = kinds ∧ List.Forall₂ p.Resolves tokens os := by
  induction h with
  | nil => exact ⟨[], rfl, .nil⟩
  | cons ho _ ih =>
    obtain ⟨o, rfl, hresolves⟩ := ho
    obtain ⟨os, rfl, hos⟩ := ih
    exact ⟨o :: os, rfl, .cons hresolves hos⟩

/-- Operands of the kinds that an opcode asks for make an instruction. -/
theorem exists_instruction_iff {p : Source} {op : Opcode} {tokens : List String} :
    (∃ i : Instruction, i.opcode = op ∧ List.Forall₂ p.Resolves tokens i.operands) ↔
      List.Forall₂ (fun kind token => ∃ o : Operand, o.kind = kind ∧ p.Resolves token o)
        op.operandKinds tokens := by
  constructor
  · rintro ⟨i, rfl, hoperands⟩
    rw [← Instruction.map_kind_operands, List.forall₂_map_left_iff]
    exact hoperands.flip.imp fun o token h => ⟨o, rfl, h⟩
  · intro h
    obtain ⟨os, hkinds, hoperands⟩ := exists_operands h
    obtain ⟨i, rfl, rfl⟩ := Instruction.exists_of_map_kind hkinds
    exact ⟨i, rfl, hoperands⟩

theorem exists_builds_iff {p : Source} : (∃ is, p.Builds is) ↔
    ∀ i ∈ p.instructions, List.Forall₂
      (fun kind token => ∃ o : Operand, o.kind = kind ∧ p.Resolves token o) i.1.operandKinds i.2 := by
  refine exists_forall₂_iff.trans ?_
  simp only [exists_instruction_iff]

namespace Analysis

variable {ls : List Line} {p : Source} {index : Nat}

theorem labels (h : Analysis ls p index) : (Outline.ofLines ls).labels = p.labels :=
  h.shows.labels

theorem labels_nodup (h : Analysis ls p index) : p.labelNames.Nodup :=
  ((Outline.admits_iff p).mp h.admits).2.1

theorem knows (h : Analysis ls p index) : (scope ls).Knows p := by
  obtain ⟨level, cs, hdeclares, hof⟩ := h.declares
  exact ⟨h.labels, h.labels_nodup, level, hof ▸ hdeclares⟩

theorem labelAt (h : Analysis ls p index) : p.LabelAt p.entry index :=
  (label?_eq_some_iff h.labels h.labels_nodup).mp h.entry

/-- The last phase builds the instructions of the program. -/
theorem instructions_eq_ok_iff (h : Analysis ls p index) {is : List Instruction} :
    (instructions (scope ls) (Outline.ofLines ls).code).1 = .ok is ↔ p.Builds is := by
  have hcode : (Outline.ofLines ls).code.map CodeLine.instruction = p.instructions :=
    h.shows.instructions
  rw [Assembly.instructions_eq_ok_iff h.knows, Source.Builds, ← hcode, List.forall₂_map_left_iff]
  rfl

/-- The program that was found is well formed if its instructions can be built. -/
theorem wellFormed_iff (h : Analysis ls p index) : p.WellFormed ↔ ∃ is, p.Builds is := by
  rw [exists_builds_iff]
  refine ⟨fun hp => hp.operands, fun hoperands => ?_⟩
  obtain ⟨level, cs, hdeclares, -⟩ := h.declares
  obtain ⟨hname, hnodup, hhandlers⟩ := (Outline.admits_iff p).mp h.admits
  have hentry : p.entry ∈ p.labelNames := by
    by_contra hnone
    have hlabel := (label?_eq_none_iff h.labels).mpr hnone
    rw [h.entry] at hlabel
    cases hlabel
  have hlevels := hdeclares.levels
  have hlength : p.levels.length ≤ 1 := by
    rw [Source.levels, hlevels.length_eq]
    exact Option.length_toList_le
  have hlevel : ∀ text ∈ p.levels, ∃ z, Numeral.Denotes text.toList z ∧ 0 ≤ z ∧ z ≤ 3 := by
    intro text htext
    obtain ⟨l, hl⟩ := exists_forall₂_iff.mp ⟨_, hlevels⟩ text htext
    exact ⟨l.toNat, hl, by cases l <;> decide⟩
  have hvalue : ∀ c ∈ p.constants, ∃ value, c.type.Gives c.text value := by
    intro c hc
    obtain ⟨n, -, hgives⟩ := exists_forall₂_iff.mp ⟨_, hdeclares.constants⟩ c hc
    exact ⟨n.value, hgives⟩
  exact ⟨hentry, hlength, hlevel, fun c hc => (hdeclares.constant_name c hc).1, hvalue,
    hdeclares.map_name ▸ hdeclares.nodup,
    fun c hc => (label?_eq_none_iff h.labels).mp (hdeclares.constant_name c hc).2, hname, hnodup,
    hhandlers, hoperands⟩

/-- A program that can be built becomes the image with its parts. -/
theorem image?_of_builds (h : Analysis ls p index) {is : List Instruction} (hbuilds : p.Builds is)
    (warnings : List String) : (assembleLines ls warnings).image? =
      some (image (scope ls).outline (scope ls).declarations index is) := by
  obtain ⟨level, cs, -, hof⟩ := h.declares
  refine assembleLines_image?_eq_some_iff.mpr ⟨h.errors, index, is, ?_, ?_,
    h.instructions_eq_ok_iff.mpr hbuilds, rfl⟩
  · rw [hof]
  · rw [hof]

end Analysis

/-- Lines that become an image are the rows of a program, and the image has the instructions that can
be built for it. -/
theorem assembleLines_image?_cases {ls : List Line} {warnings : List String} {i : Image}
    (h : (assembleLines ls warnings).image? = some i) :
    ∃ p index, Analysis ls p index ∧ p.Builds i.instructions ∧
      image (scope ls).outline (scope ls).declarations index i.instructions = i := by
  obtain ⟨herrors, entry, is, hdeclarations, hentry, his, rfl⟩ :=
    assembleLines_image?_eq_some_iff.mp h
  obtain ⟨p, index, hanalysis⟩ := exists_analysis herrors hdeclarations
  obtain ⟨level, cs, -, hof⟩ := hanalysis.declares
  obtain rfl : index = entry := by
    rw [hof] at hentry
    exact Option.some.inj hentry
  exact ⟨p, index, hanalysis, hanalysis.instructions_eq_ok_iff.mp his, rfl⟩

/-- A well-formed program is assembled. -/
theorem exists_assembleLines_image? {ls : List Line} {warnings : List String} {p : Source}
    (hrows : Rows ls p.rows) (hp : p.WellFormed) :
    ∃ i, (assembleLines ls warnings).image? = some i := by
  obtain ⟨index, hanalysis⟩ := analysis_of_wellFormed hrows hp
  obtain ⟨is, hbuilds⟩ := hanalysis.wellFormed_iff.mp hp
  exact ⟨_, hanalysis.image?_of_builds hbuilds warnings⟩

/-- A source text is assembled exactly if its macros are replaced without an error, and the lines
behind this are the rows of a well-formed program. -/
theorem succeeded_iff_wellFormed (source : String) : (assemble source).succeeded ↔
    (Macro.expand source).errors = [] ∧
      ∃ p : Source, Rows (Macro.expand source).lines p.rows ∧ p.WellFormed := by
  rw [Assembled.succeeded_iff]
  simp only [assemble_image?_eq_some_iff, exists_and_left]
  refine and_congr_right fun _ => ?_
  constructor
  · rintro ⟨i, hi⟩
    obtain ⟨p, index, hanalysis, hbuilds, -⟩ := assembleLines_image?_cases hi
    exact ⟨p, hanalysis.rows, hanalysis.wellFormed_iff.mpr ⟨_, hbuilds⟩⟩
  · rintro ⟨p, hrows, hp⟩
    exact exists_assembleLines_image? hrows hp

/-- The image of a source text has one instruction for each line with a mnemonic, and its operands are
what the tokens stand for in the program whose rows the lines are. A name is that of one label or of
one constant. -/
theorem instructions_resolve {source : String} {i : Image} (h : (assemble source).image? = some i) :
    ∃ p : Source, (∀ q : Source, Rows (Macro.expand source).lines q.rows ↔ q = p) ∧
      List.Forall₂ (fun (l : Opcode × List String) (i : Instruction) =>
        i.opcode = l.1 ∧ List.Forall₂ p.Resolves l.2 i.operands) p.instructions i.instructions ∧
      (p.labelNames ++ p.constants.map ConstantLine.name).Nodup := by
  obtain ⟨-, hi⟩ := assemble_image?_eq_some_iff.mp h
  obtain ⟨p, index, hanalysis, hbuilds, -⟩ := assembleLines_image?_cases hi
  have hp := hanalysis.wellFormed_iff.mpr ⟨_, hbuilds⟩
  refine ⟨p, rows_iff_eq hanalysis.rows, hbuilds, ?_⟩
  refine List.nodup_append.mpr ⟨hp.labels_nodup, hp.constants_nodup, ?_⟩
  rintro name hlabel _ hconstant rfl
  obtain ⟨c, hc, rfl⟩ := List.mem_map.mp hconstant
  exact hp.constant_label c hc hlabel

/-- A program that jumps to a label further down and moves the place and the size of a constant. -/
theorem instructions_resolve_forward :
    let source := ".init main\n.u8 a 5\n.string b \"xyz\"\n.code\njmp main\nmov i0, &b\nmain:\nmov i1, #b"
    ∃ i, (assemble source).image? = some i ∧
      i.instructions = [.jump 2, .move (.int 0) 2, .move (.int 1) 3] ∧
      ∃ p : Source, (∀ q : Source, Rows (Macro.expand source).lines q.rows ↔ q = p) ∧
        List.Forall₂ (fun (l : Opcode × List String) (i : Instruction) =>
          i.opcode = l.1 ∧ List.Forall₂ p.Resolves l.2 i.operands) p.instructions i.instructions ∧
        (p.labelNames ++ p.constants.map ConstantLine.name).Nodup := by
  intro source
  have h : (assemble source).image? = some
      { version := Version.supported, debug := .none, sections := [⟨2, "main"⟩], interrupts := [],
        constants := [.u8 5, .string "xyz"], entry := 2,
        instructions := [.jump 2, .move (.int 0) 2, .move (.int 1) 3] } := by decide +kernel
  exact ⟨_, h, rfl, instructions_resolve h⟩

end RegisterMachine.Assembly
