import Mathlib
import RegisterMachine.Proofs.Assembly.Row

namespace RegisterMachine

namespace Assembly

/-- Some entry has this key. -/
theorem any_beq_iff_mem_map {α κ : Type} [BEq κ] [LawfulBEq κ] {key : α → κ} {entries : List α}
    {k : κ} : entries.any (fun a => key a == k) = true ↔ k ∈ entries.map key := by
  simp only [List.any_eq_true, beq_iff_eq, List.mem_map]

/-- The head and the arguments of a directive. -/
def Directive.tokens (d : Directive) : List String :=
  d.head :: d.arguments

/-- The mnemonic and the operands of a line of code. -/
def CodeLine.instruction (l : CodeLine) : Opcode × List String :=
  (l.opcode, l.operands)

namespace Label

/-- The interrupt that the code behind a label handles, and the index of the label. -/
def handler? (l : Label) : Option (UInt64 × Nat) :=
  (interrupt? l.name).map fun id => (id, l.index)

theorem interrupt?_eq_some_iff {name : String} {id : UInt64} :
    interrupt? name = some id ↔ Handles name id := by
  unfold interrupt? Handles
  split
  next hmark =>
    obtain ⟨rest, hrest⟩ := List.isPrefixOf_iff_prefix.mp hmark
    rw [← hrest, List.drop_left, Numeral.index?_eq_some_iff]
    constructor
    · intro h
      refine ⟨String.ofList rest, ?_, by rwa [String.toList_ofList]⟩
      rw [← String.toList_inj, String.toList_append]
      exact hrest.symm.trans (congrArg _ String.toList_ofList.symm)
    · rintro ⟨text, rfl, h⟩
      rw [String.toList_append] at hrest
      rwa [List.append_cancel_left hrest]
  next hmark =>
    simp only [reduceCtorEq, false_iff]
    rintro ⟨text, rfl, -⟩
    apply hmark
    rw [String.toList_append]
    exact List.isPrefixOf_iff_prefix.mpr (List.prefix_append _ _)

end Label

theorem toList_head?_of_isIdentifier {s : List Char} (h : isIdentifier s) : s.head? ≠ some '.' := by
  intro hhead
  simp only [isIdentifier, Bool.and_eq_true, List.all_eq_true] at h
  have hpoint := h.2 '.' (List.mem_of_head? hhead)
  exact absurd hpoint (by decide)

namespace Outline

/-- The outline with one more label. -/
def bind (o : Outline) (name : String) : Outline :=
  { o with
    labels := o.labels ++ [⟨name, o.code.length⟩]
    handlers := o.handlers ++ (Label.handler? ⟨name, o.code.length⟩).toList }

/-- A row of tokens that makes no error behind what is known already. -/
inductive Accepts (o : Outline) : List String → Prop
  | directive {row : List String} : o.inCode = false → IsDirective row → o.Accepts row
  | start : o.inCode = false → o.Accepts [".code"]
  | label {name : String} : o.inCode = true → isIdentifier name.toList →
      name ∉ o.labels.map Label.name →
      (∀ id, Label.interrupt? name = some id → id ∉ o.handlers.map Prod.fst) →
      o.Accepts [name ++ ":"]
  | instruction (op : Opcode) (operands : List String) : o.inCode = true →
      o.Accepts (op.mnemonic :: operands)

variable {o : Outline} {line : Nat} {head name : String} {arguments : List String}

theorem addError_errors_ne_nil {cause : Cause} : (o.addError line cause).errors ≠ [] := by
  simp [addError]

theorem addTokens_directive (hin : o.inCode = false) (hhead : head.toList.head? = some '.')
    (hne : head ≠ ".code") :
    o.addTokens line head arguments =
      { o with directives := o.directives ++ [⟨line, head, arguments⟩] } := by
  rw [addTokens, if_pos hhead, addDirective, codeDirective, if_neg hne, hin]
  rfl

theorem addTokens_start (hin : o.inCode = false) :
    o.addTokens line ".code" [] = { o with inCode := true } := by
  have hhead : ".code".toList.head? = some '.' := rfl
  rw [addTokens, if_pos hhead, addDirective, codeDirective, if_pos rfl, hin]
  rfl

theorem addTokens_label_eq (hin : o.inCode = true) (hname : isIdentifier name.toList) :
    o.addTokens line (name ++ ":") arguments = o.addLabel line name arguments := by
  have htext : (name ++ ":").toList = name.toList ++ [':'] := String.toList_append
  have hne : name.toList ≠ [] := by
    rintro hnil
    rw [hnil] at hname
    exact absurd hname (by decide)
  have hhead : (name ++ ":").toList.head? ≠ some '.' := by
    rw [htext, List.head?_append_of_ne_nil _ hne]
    exact toList_head?_of_isIdentifier hname
  have hlast : (name ++ ":").toList.getLast? = some ':' := by rw [htext, List.getLast?_concat]
  rw [addTokens, if_neg hhead, hin, if_neg (by decide), if_pos hlast, htext, List.dropLast_concat,
    String.ofList_toList]

theorem addTokens_label (hin : o.inCode = true) (hname : isIdentifier name.toList)
    (hnew : name ∉ o.labels.map Label.name)
    (hhandler : ∀ id, Label.interrupt? name = some id → id ∉ o.handlers.map Prod.fst) :
    o.addTokens line (name ++ ":") [] = o.bind name := by
  have hany : o.labels.any (·.name == name) = false :=
    Bool.eq_false_iff.mpr (any_beq_iff_mem_map.not.mpr hnew)
  rw [addTokens_label_eq hin hname, addLabel, hname, hany, if_neg (by decide), if_neg (by decide),
    if_neg (by decide), bind, Label.handler?]
  cases hid : Label.interrupt? name with
  | none => simp
  | some id =>
    have hfree : o.handlers.any (·.1 == id) = false :=
      Bool.eq_false_iff.mpr (any_beq_iff_mem_map.not.mpr (hhandler id hid))
    simp [hfree]

theorem addTokens_instruction (hin : o.inCode = true) (op : Opcode) (operands : List String) :
    o.addTokens line op.mnemonic operands = { o with code := o.code ++ [⟨line, op, operands⟩] } := by
  obtain ⟨hhead, hlast⟩ := op.mnemonic_marks
  rw [addTokens, if_neg hhead, hin, if_neg (by decide), if_neg hlast, Opcode.ofMnemonic?_mnemonic]

theorem accepts_of_addDirective (hhead : head.toList.head? = some '.')
    (h : (o.addDirective line head arguments).errors = []) : o.Accepts (head :: arguments) := by
  unfold addDirective codeDirective at h
  by_cases hcode : head = ".code"
  · rw [if_pos hcode] at h
    cases hin : o.inCode with
    | true => exact (addError_errors_ne_nil (by simpa [hin] using h)).elim
    | false =>
      by_cases hargs : arguments = []
      · subst hcode hargs
        exact .start hin
      · exact (addError_errors_ne_nil (by simpa [hin, hargs] using h)).elim
  · rw [if_neg hcode] at h
    cases hin : o.inCode with
    | true => exact (addError_errors_ne_nil (by simpa [hin] using h)).elim
    | false => exact .directive hin ⟨head, arguments, rfl, hhead, hcode⟩

theorem accepts_of_addLabel (hin : o.inCode = true)
    (h : (o.addLabel line name arguments).errors = []) :
    o.Accepts ((name ++ ":") :: arguments) := by
  unfold addLabel at h
  by_cases hname : isIdentifier name.toList = false
  · rw [if_pos hname] at h
    exact (addError_errors_ne_nil h).elim
  by_cases hargs : arguments ≠ []
  · rw [if_neg hname, if_pos hargs] at h
    exact (addError_errors_ne_nil h).elim
  by_cases hold : o.labels.any (·.name == name)
  · rw [if_neg hname, if_neg hargs, if_pos hold] at h
    exact (addError_errors_ne_nil h).elim
  rw [if_neg hname, if_neg hargs, if_neg hold] at h
  obtain rfl : arguments = [] := not_not.mp hargs
  refine .label hin (Bool.not_eq_false _ ▸ hname) (any_beq_iff_mem_map.not.mp hold) fun id hid => ?_
  by_cases hused : o.handlers.any (·.1 == id)
  · simp only [hid, hused, if_true] at h
    exact (addError_errors_ne_nil h).elim
  · exact any_beq_iff_mem_map.not.mp hused

theorem accepts_of_addTokens (h : (o.addTokens line head arguments).errors = []) :
    o.Accepts (head :: arguments) := by
  unfold addTokens at h
  by_cases hhead : head.toList.head? = some '.'
  · rw [if_pos hhead] at h
    exact accepts_of_addDirective hhead h
  rw [if_neg hhead] at h
  by_cases hin : o.inCode = false
  · rw [if_pos hin] at h
    exact (addError_errors_ne_nil h).elim
  rw [if_neg hin] at h
  have hcode : o.inCode = true := Bool.not_eq_false _ ▸ hin
  by_cases hlast : head.toList.getLast? = some ':'
  · rw [if_pos hlast] at h
    have htext : head = String.ofList head.toList.dropLast ++ ":" := by
      rw [← String.toList_inj, String.toList_append, String.toList_ofList]
      exact (List.dropLast_append_getLast? _ hlast).symm
    rw [htext]
    exact accepts_of_addLabel hcode h
  · rw [if_neg hlast] at h
    cases hop : Opcode.ofMnemonic? head with
    | none => exact (addError_errors_ne_nil (by simpa [hop] using h)).elim
    | some op =>
      rw [Opcode.ofMnemonic?_eq_some_iff.mp hop]
      exact .instruction op arguments hcode

/-- An error that was made stays. -/
theorem errors_prefix_addError {cause : Cause} : o.errors <+: (o.addError line cause).errors :=
  List.prefix_append _ _

theorem errors_prefix_addDirective : o.errors <+: (o.addDirective line head arguments).errors := by
  unfold addDirective
  by_cases hhead : head = codeDirective
  · rw [if_pos hhead]
    cases o.inCode with
    | true => exact errors_prefix_addError (o := { o with inCode := true })
    | false =>
      by_cases harguments : arguments = []
      · rw [if_neg (by decide), if_pos harguments]
      · rw [if_neg (by decide), if_neg harguments]
        exact errors_prefix_addError (o := { o with inCode := true })
  · rw [if_neg hhead]
    cases o.inCode with
    | true => exact errors_prefix_addError
    | false => exact List.prefix_rfl

theorem errors_prefix_addLabel : o.errors <+: (o.addLabel line name arguments).errors := by
  unfold addLabel
  split
  next => exact errors_prefix_addError
  split
  next => exact errors_prefix_addError
  split
  next => exact errors_prefix_addError
  cases Label.interrupt? name with
  | none => exact List.prefix_rfl
  | some id =>
    by_cases hused : o.handlers.any (·.1 == id)
    · simp only [hused, if_true]
      exact List.prefix_append _ _
    · simp only [hused]
      exact List.prefix_rfl

theorem errors_prefix_addTokens : o.errors <+: (o.addTokens line head arguments).errors := by
  unfold addTokens
  split
  next => exact errors_prefix_addDirective
  split
  next => exact errors_prefix_addError
  split
  next => exact errors_prefix_addLabel
  cases Opcode.ofMnemonic? head with
  | none => exact errors_prefix_addError
  | some op => exact List.prefix_rfl

theorem errors_prefix_addLine {l : Line} : o.errors <+: (o.addLine l).errors := by
  unfold addLine
  split
  · exact List.prefix_append _ _
  · exact List.prefix_rfl
  · exact errors_prefix_addTokens

theorem errors_prefix_foldl {ls : List Line} : o.errors <+: (ls.foldl addLine o).errors := by
  induction ls generalizing o with
  | nil => exact List.prefix_rfl
  | cons l ls ih => exact errors_prefix_addLine.trans ih

/-- The labels of some code behind what is known already have names, and no two of them have the same
name or handle the same interrupt. -/
structure Admits (o : Outline) (code : List Statement) : Prop where
  label_name : ∀ l ∈ Statement.labels o.code.length code, isIdentifier l.name.toList
  labels_nodup : ((o.labels ++ Statement.labels o.code.length code).map Label.name).Nodup
  handlers_nodup : ((o.handlers ++
    (Statement.labels o.code.length code).filterMap Label.handler?).map Prod.fst).Nodup

/-- What is known behind some rows of directives and some code. -/
structure Extends (o : Outline) (ds : List (List String)) (code : List Statement) (o' : Outline) :
    Prop where
  directives : o'.directives.map Directive.tokens = o.directives.map Directive.tokens ++ ds
  instructions : o'.code.map CodeLine.instruction =
    o.code.map CodeLine.instruction ++ Statement.instructions code
  labels : o'.labels = o.labels ++ Statement.labels o.code.length code
  handlers : o'.handlers =
    o.handlers ++ (Statement.labels o.code.length code).filterMap Label.handler?

variable {ds : List (List String)} {code : List Statement} {o' : Outline}

theorem handlers_bind : (o.bind name).handlers ++ (Statement.labels o.code.length code).filterMap
    Label.handler? = o.handlers ++ (Statement.labels o.code.length (.label name :: code)).filterMap
    Label.handler? := by
  rw [Statement.labels, List.filterMap_cons, bind, List.append_assoc]
  cases Label.handler? ⟨name, o.code.length⟩ <;> rfl

theorem admits_label_iff : o.Admits (.label name :: code) ↔
    isIdentifier name.toList ∧ (o.bind name).Admits code := by
  have hlabels : (o.bind name).labels ++ Statement.labels o.code.length code =
      o.labels ++ Statement.labels o.code.length (.label name :: code) :=
    List.append_assoc _ _ _
  constructor
  · rintro ⟨hname, hlabel, hhandler⟩
    obtain ⟨hhead, hrest⟩ := List.forall_mem_cons.mp hname
    refine ⟨hhead, hrest, ?_, ?_⟩
    · rwa [← hlabels] at hlabel
    · rwa [← handlers_bind] at hhandler
  · rintro ⟨hhead, hrest, hlabel, hhandler⟩
    refine ⟨List.forall_mem_cons.mpr ⟨hhead, hrest⟩, ?_, ?_⟩
    · rwa [← hlabels]
    · rwa [← handlers_bind]

theorem admits_instruction_iff {l : CodeLine} : o.Admits (.instruction l.opcode l.operands :: code) ↔
    { o with code := o.code ++ [l] : Outline }.Admits code := by
  have hlabels : Statement.labels o.code.length (.instruction l.opcode l.operands :: code) =
      Statement.labels (o.code ++ [l]).length code := by
    rw [List.length_append]
    rfl
  constructor
  · rintro ⟨hname, hlabel, hhandler⟩
    rw [hlabels] at hname hlabel hhandler
    exact ⟨hname, hlabel, hhandler⟩
  · rintro ⟨hname, hlabel, hhandler⟩
    refine ⟨?_, ?_, ?_⟩ <;> rwa [hlabels]

/-- Only the labels, the handlers and the number of instructions matter. -/
theorem Admits.of_eq (h : o.Admits code) (hcode : o'.code.length = o.code.length)
    (hlabels : o'.labels = o.labels) (hhandlers : o'.handlers = o.handlers) : o'.Admits code := by
  obtain ⟨hname, hlabel, hhandler⟩ := h
  rw [← hcode] at hname hlabel hhandler
  rw [← hlabels] at hlabel
  rw [← hhandlers] at hhandler
  exact ⟨hname, hlabel, hhandler⟩

/-- What holds of the labels behind some code held before. -/
theorem Admits.nil (h : o.Admits code) : o.Admits [] := by
  have hlabel := h.labels_nodup
  have hhandler := h.handlers_nodup
  rw [List.map_append] at hlabel hhandler
  refine ⟨fun l hl => absurd hl List.not_mem_nil, ?_, ?_⟩
  · simpa [Statement.labels] using hlabel.of_append_left
  · simpa [Statement.labels] using hhandler.of_append_left

theorem Admits.bind_nil (h : o.Admits []) (hnew : name ∉ o.labels.map Label.name)
    (hhandler : ∀ id, Label.interrupt? name = some id → id ∉ o.handlers.map Prod.fst) :
    (o.bind name).Admits [] := by
  obtain ⟨-, hlabels, hhandlers⟩ := h
  simp only [Statement.labels, List.filterMap_nil, List.append_nil] at hlabels hhandlers
  refine ⟨fun l hl => absurd hl List.not_mem_nil, ?_, ?_⟩
  · simp only [Statement.labels, List.append_nil, bind, List.map_append, List.map_cons, List.map_nil]
    exact List.nodup_append.mpr ⟨hlabels, List.nodup_singleton _, by
      rintro a ha b hb rfl
      exact hnew (List.mem_singleton.mp hb ▸ ha)⟩
  · simp only [Statement.labels, List.append_nil, List.filterMap_nil, bind, List.map_append]
    cases hid : Label.interrupt? name with
    | none => simpa [Label.handler?, hid] using hhandlers
    | some id =>
      simp only [Label.handler?, hid, Option.map_some, Option.toList_some, List.map_cons,
        List.map_nil]
      exact List.nodup_append.mpr ⟨hhandlers, List.nodup_singleton _, by
        rintro a ha b hb rfl
        exact hhandler id hid (List.mem_singleton.mp hb ▸ ha)⟩

theorem Admits.free (h : (o.bind name).Admits []) : name ∉ o.labels.map Label.name ∧
    ∀ id, Label.interrupt? name = some id → id ∉ o.handlers.map Prod.fst := by
  obtain ⟨-, hlabels, hhandlers⟩ := h
  simp only [Statement.labels, List.append_nil, List.filterMap_nil, bind, List.map_append,
    List.map_cons, List.map_nil] at hlabels hhandlers
  refine ⟨fun hmem => ?_, fun id hid hmem => ?_⟩
  · exact (List.nodup_append.mp hlabels).2.2 _ hmem _ (List.mem_singleton_self _) rfl
  · simp only [Label.handler?, hid, Option.map_some, Option.toList_some, List.map_cons,
      List.map_nil] at hhandlers
    exact (List.nodup_append.mp hhandlers).2.2 _ hmem _ (List.mem_singleton_self _) rfl

theorem Extends.label (h : (o.bind name).Extends ds code o') :
    o.Extends ds (.label name :: code) o' := by
  refine ⟨h.directives, h.instructions, ?_, ?_⟩
  · rw [h.labels]
    exact List.append_assoc _ _ _
  · rw [h.handlers]
    exact handlers_bind

theorem Extends.instruction {l : CodeLine}
    (h : { o with code := o.code ++ [l] : Outline }.Extends ds code o') :
    o.Extends ds (.instruction l.opcode l.operands :: code) o' := by
  have hlabels : Statement.labels o.code.length (.instruction l.opcode l.operands :: code) =
      Statement.labels (o.code ++ [l]).length code := by
    rw [List.length_append]
    rfl
  refine ⟨h.directives, ?_, ?_, ?_⟩
  · rw [h.instructions, List.map_append, List.append_assoc]
    rfl
  · rw [h.labels, hlabels]
  · rw [h.handlers, hlabels]

theorem Extends.directive {d : Directive}
    (h : { o with directives := o.directives ++ [d] : Outline }.Extends ds code o') :
    o.Extends (d.tokens :: ds) code o' := by
  refine ⟨?_, h.instructions, h.labels, h.handlers⟩
  rw [h.directives, List.map_append, List.append_assoc]
  rfl

/-- A line that makes no error is empty or holds a row that is accepted. -/
theorem addLine_cases {l : Line} (h : (o.addLine l).errors = []) :
    tokens? l.text = some [] ∧ o.addLine l = o ∨
      ∃ head arguments, tokens? l.text = some (head :: arguments) ∧
        o.addLine l = o.addTokens l.number head arguments ∧ o.Accepts (head :: arguments) := by
  cases ht : tokens? l.text with
  | none => exact (addError_errors_ne_nil (by simpa only [addLine, ht] using h)).elim
  | some row =>
    cases row with
    | nil => exact .inl ⟨rfl, by simp only [addLine, ht]⟩
    | cons head arguments =>
      have hadd : o.addLine l = o.addTokens l.number head arguments := by simp only [addLine, ht]
      exact .inr ⟨head, arguments, rfl, hadd, accepts_of_addTokens (hadd ▸ h)⟩

theorem addLine_errors_eq_nil {l : Line} {ls : List Line}
    (h : ((l :: ls).foldl addLine o).errors = []) : (o.addLine l).errors = [] := by
  have hprefix : (o.addLine l).errors <+: (ls.foldl addLine (o.addLine l)).errors :=
    errors_prefix_foldl
  rw [List.foldl_cons] at h
  exact List.prefix_nil.mp (h ▸ hprefix)

/-- Behind the start of the code, lines without an error hold labels and instructions. -/
theorem exists_code {ls : List Line} (hin : o.inCode = true) (hadm : o.Admits [])
    (h : (ls.foldl addLine o).errors = []) :
    ∃ code, Rows ls (code.map Statement.tokens) ∧ o.Admits code := by
  -- Each line changes what is known, so the labels of the rest are judged by what is known then.
  induction ls generalizing o with
  | nil => exact ⟨[], rows_nil.mpr rfl, hadm⟩
  | cons l ls ih =>
    have hline := addLine_errors_eq_nil h
    rw [List.foldl_cons] at h
    rcases addLine_cases hline with ⟨ht, hadd⟩ | ⟨head, arguments, ht, hadd, hacc⟩
    · obtain ⟨code, hrows, hcode⟩ := ih hin hadm (hadd ▸ h)
      exact ⟨code, rows_cons.mpr ⟨_, _, ht, hrows, rfl⟩, hcode⟩
    · rw [hadd] at h
      cases hacc with
      | directive hout _ => rw [hin] at hout; cases hout
      | start hout => rw [hin] at hout; cases hout
      | @label name _ hname hnew hhandler =>
        rw [addTokens_label hin hname hnew hhandler] at h
        obtain ⟨code, hrows, hcode⟩ := ih (o := o.bind name) hin (hadm.bind_nil hnew hhandler) h
        exact ⟨.label name :: code, rows_cons.mpr ⟨_, _, ht, hrows, rfl⟩,
          admits_label_iff.mpr ⟨hname, hcode⟩⟩
      | instruction op _ _ =>
        rw [addTokens_instruction hin] at h
        obtain ⟨code, hrows, hcode⟩ := ih (o := { o with code := o.code ++ [⟨l.number, op, arguments⟩] })
          hin ⟨fun l hl => absurd hl List.not_mem_nil, hadm.labels_nodup, hadm.handlers_nodup⟩ h
        exact ⟨.instruction op arguments :: code, rows_cons.mpr ⟨_, _, ht, hrows, rfl⟩,
          admits_instruction_iff.mpr hcode⟩

/-- Behind the start of the code, lines that hold labels and instructions make no error. -/
theorem extends_code {ls : List Line} (hin : o.inCode = true) (hok : o.errors = [])
    (hrows : Rows ls (code.map Statement.tokens)) (hadm : o.Admits code) :
    (ls.foldl addLine o).errors = [] ∧ (ls.foldl addLine o).inCode = true ∧
      o.Extends [] code (ls.foldl addLine o) := by
  -- What the lines add is told from where they start, so that the rest can add to it.
  induction ls generalizing o code with
  | nil =>
    obtain rfl : code = [] := List.map_eq_nil_iff.mp (rows_nil.mp hrows)
    refine ⟨hok, hin, ?_, ?_, ?_, ?_⟩ <;> exact (List.append_nil _).symm
  | cons l ls ih =>
    obtain ⟨row, rest, ht, hrest, hrow⟩ := rows_cons.mp hrows
    rw [List.foldl_cons]
    cases row with
    | nil =>
      have hadd : o.addLine l = o := by simp only [addLine, ht]
      rw [hadd]
      exact ih hin hok (hrow ▸ hrest) hadm
    | cons head arguments =>
      have hadd : o.addLine l = o.addTokens l.number head arguments := by simp only [addLine, ht]
      rw [if_neg (List.cons_ne_nil _ _)] at hrow
      obtain ⟨statement, code, rfl, hhead, rfl⟩ := List.map_eq_cons_iff.mp hrow
      rw [hadd]
      cases statement with
      | label name =>
        obtain ⟨rfl, rfl⟩ := List.cons.inj hhead
        obtain ⟨hname, hcode⟩ := admits_label_iff.mp hadm
        obtain ⟨hnew, hhandler⟩ := hcode.nil.free
        rw [addTokens_label hin hname hnew hhandler]
        obtain ⟨herrors, hend, hext⟩ := ih (o := o.bind name) hin hok hrest hcode
        exact ⟨herrors, hend, hext.label⟩
      | instruction op operands =>
        obtain ⟨rfl, rfl⟩ := List.cons.inj hhead
        rw [addTokens_instruction hin]
        have hcode := admits_instruction_iff (l := ⟨l.number, op, operands⟩).mp hadm
        obtain ⟨herrors, hend, hext⟩ :=
          ih (o := { o with code := o.code ++ [⟨l.number, op, operands⟩] }) hin hok hrest hcode
        exact ⟨herrors, hend, hext.instruction⟩

/-- Lines without an error, with the start of the code among them, hold directives, the start of the
code, and the code. -/
theorem exists_rows {ls : List Line} (hin : o.inCode = false) (hadm : o.Admits [])
    (h : (ls.foldl addLine o).finish.errors = []) :
    ∃ ds code, Rows ls (ds ++ [".code"] :: code.map Statement.tokens) ∧
      (∀ d ∈ ds, IsDirective d) ∧ o.Admits code := by
  have hend : (ls.foldl addLine o).inCode = true := by
    by_contra hout
    rw [finish, if_neg hout] at h
    exact addError_errors_ne_nil h
  rw [finish, if_pos hend] at h
  -- Directives take the induction further, the start of the code ends it.
  induction ls generalizing o with
  | nil =>
    rw [List.foldl_nil, hin] at hend
    cases hend
  | cons l ls ih =>
    have hline := addLine_errors_eq_nil h
    rw [List.foldl_cons] at h hend
    rcases addLine_cases hline with ⟨ht, hadd⟩ | ⟨head, arguments, ht, hadd, hacc⟩
    · rw [hadd] at h hend
      obtain ⟨ds, code, hrows, hds, hcode⟩ := ih hin hadm h hend
      exact ⟨ds, code, rows_cons.mpr ⟨_, _, ht, hrows, rfl⟩, hds, hcode⟩
    · rw [hadd] at h hend
      cases hacc with
      | directive _ hrow =>
        obtain ⟨_, _, he, hhead, hne⟩ := hrow
        obtain ⟨rfl, rfl⟩ := List.cons.inj he
        rw [addTokens_directive hin hhead hne] at h hend
        obtain ⟨ds, code, hrows, hds, hcode⟩ := ih
          (o := { o with directives := o.directives ++ [⟨l.number, head, arguments⟩] }) hin
          (hadm.of_eq rfl rfl rfl) h hend
        refine ⟨(head :: arguments) :: ds, code, rows_cons.mpr ⟨_, _, ht, hrows, rfl⟩,
          List.forall_mem_cons.mpr ⟨⟨head, arguments, rfl, hhead, hne⟩, hds⟩, ?_⟩
        exact hcode.of_eq rfl rfl rfl
      | start _ =>
        rw [addTokens_start hin] at h
        obtain ⟨code, hrows, hcode⟩ := exists_code (o := { o with inCode := true }) rfl
          (hadm.of_eq rfl rfl rfl) h
        refine ⟨[], code, rows_cons.mpr ⟨_, _, ht, hrows, rfl⟩, fun d hd => absurd hd List.not_mem_nil,
          ?_⟩
        exact hcode.of_eq rfl rfl rfl
      | label hcode => rw [hin] at hcode; cases hcode
      | instruction _ _ hcode => rw [hin] at hcode; cases hcode

/-- Lines that hold directives, the start of the code, and the code make no error. -/
theorem extends_rows {ls : List Line} (hin : o.inCode = false) (hok : o.errors = [])
    (hrows : Rows ls (ds ++ [".code"] :: code.map Statement.tokens)) (hds : ∀ d ∈ ds, IsDirective d)
    (hadm : o.Admits code) :
    (ls.foldl addLine o).finish.errors = [] ∧ o.Extends ds code (ls.foldl addLine o).finish := by
  induction ls generalizing o ds with
  | nil =>
    have hnil := rows_nil.mp hrows
    simp at hnil
  | cons l ls ih =>
    obtain ⟨row, rest, ht, hrest, hrow⟩ := rows_cons.mp hrows
    rw [List.foldl_cons]
    cases row with
    | nil =>
      have hadd : o.addLine l = o := by simp only [addLine, ht]
      rw [hadd]
      exact ih hin hok (hrow ▸ hrest) hds hadm
    | cons head arguments =>
      have hadd : o.addLine l = o.addTokens l.number head arguments := by simp only [addLine, ht]
      rw [if_neg (List.cons_ne_nil _ _)] at hrow
      rw [hadd]
      cases ds with
      | nil =>
        obtain ⟨he, rfl⟩ := List.cons.inj hrow
        obtain ⟨rfl, rfl⟩ := List.cons.inj he
        rw [addTokens_start hin]
        obtain ⟨herrors, hend, hext⟩ := extends_code (o := { o with inCode := true }) rfl hok hrest
          (hadm.of_eq rfl rfl rfl)
        rw [finish, if_pos hend]
        exact ⟨herrors, hext.directives, hext.instructions, hext.labels, hext.handlers⟩
      | cons d ds =>
        obtain ⟨rfl, rfl⟩ := List.cons.inj hrow
        obtain ⟨⟨_, _, he, hhead, hne⟩, hds⟩ := List.forall_mem_cons.mp hds
        obtain ⟨rfl, rfl⟩ := List.cons.inj he
        rw [addTokens_directive hin hhead hne]
        obtain ⟨herrors, hext⟩ := ih
          (o := { o with directives := o.directives ++ [⟨l.number, head, arguments⟩] }) hin hok hrest hds
          (hadm.of_eq rfl rfl rfl)
        exact ⟨herrors, hext.directive⟩

theorem admits_nil : ({} : Outline).Admits [] :=
  ⟨fun _ h => absurd h List.not_mem_nil, List.nodup_nil, List.nodup_nil⟩

/-- The labels of a program that may stand behind nothing. -/
theorem admits_iff (p : Source) : ({} : Outline).Admits p.code ↔
    (∀ name ∈ p.labelNames, isIdentifier name.toList) ∧ p.labelNames.Nodup ∧
      p.labelNames.Pairwise fun a b => ∀ id, Label.Handles a id → ¬ Label.Handles b id := by
  have hnames : (∀ l ∈ p.labels, isIdentifier l.name.toList) ↔
      ∀ name ∈ p.labelNames, isIdentifier name.toList := by
    simp [Source.labelNames]
  have hhandlers : ((p.labels.filterMap Label.handler?).map Prod.fst).Nodup ↔
      p.labelNames.Pairwise fun a b => ∀ id, Label.Handles a id → ¬ Label.Handles b id := by
    have hids : (p.labels.filterMap Label.handler?).map Prod.fst =
        p.labels.filterMap fun l => Label.interrupt? l.name := by
      rw [List.map_filterMap]
      congr 1
      funext l
      rw [Label.handler?, Option.map_map]
      exact Option.map_id'
    rw [hids, List.Nodup, List.pairwise_filterMap, Source.labelNames, List.pairwise_map]
    simp only [Label.interrupt?_eq_some_iff]
    refine List.Pairwise.iff fun l l' => ?_
    constructor
    · exact fun h id hid hid' => h id hid id hid' rfl
    · rintro h id hid _ hid' rfl
      exact h id hid hid'
  constructor
  · rintro ⟨hname, hlabel, hhandler⟩
    exact ⟨hnames.mp hname, hlabel, hhandlers.mp hhandler⟩
  · rintro ⟨hname, hlabel, hhandler⟩
    exact ⟨hnames.mpr hname, hlabel, hhandlers.mpr hhandler⟩

end Outline

end Assembly

end RegisterMachine
