import Mathlib
import RegisterMachine.Assembly.Assemble
import RegisterMachine.Proofs.Assembly.Declarations
import RegisterMachine.Proofs.Assembly.Lines
import RegisterMachine.Proofs.Assembly.Parts
import RegisterMachine.Proofs.Checked.Operation
import RegisterMachine.Proofs.Image.Binary
import RegisterMachine.Proofs.Text.Lossy

namespace RegisterMachine.Checked

open Assembly

section

variable {s t : List Char}

theorem byteLength_le_of_sublist (h : s.Sublist t) : byteLength s ≤ byteLength t := by
  induction h with
  | slnil => exact Nat.le_refl _
  | cons c _ ih =>
    rw [byteLength]
    omega
  | cons_cons c _ ih =>
    rw [byteLength, byteLength]
    omega

theorem length_le_byteLength (s : List Char) : s.length ≤ byteLength s := by
  induction s with
  | nil => exact Nat.le_refl _
  | cons c s ih =>
    have hsize := c.utf8Size_pos
    rw [List.length_cons, byteLength]
    omega

theorem byteLength_concat (s : List Char) (c : Char) : byteLength (s ++ [c]) = byteLength s + c.utf8Size := by
  rw [byteLength_append, byteLength]
  rfl

theorem byteLength_toList (s : String) : byteLength s.toList = s.utf8ByteSize := by
  rw [← length_bytes, bytes, ← Text.toUTF8_ofList, String.ofList_toList, Binary.length_toUTF8]

end

/-- The number of bytes of some texts. -/
def extent (texts : List (List Char)) : Nat :=
  (texts.map byteLength).sum

section

variable {texts texts' : List (List Char)}

theorem extent_nil : extent [] = 0 := rfl

theorem extent_cons (s : List Char) (texts : List (List Char)) :
    extent (s :: texts) = byteLength s + extent texts :=
  List.sum_cons

theorem extent_append (texts texts' : List (List Char)) :
    extent (texts ++ texts') = extent texts + extent texts' := by
  rw [extent, List.map_append, List.sum_append]
  rfl

theorem extent_le_of_sublist (h : texts.Sublist texts') : extent texts ≤ extent texts' :=
  (h.map byteLength).sum_le_sum fun _ _ => Nat.zero_le _

theorem extent_perm (h : texts.Perm texts') : extent texts = extent texts' :=
  (h.map byteLength).sum_eq

/-- Texts that differ from each other have no more bytes than the texts that they are among. -/
theorem extent_le_of_nodup (hnodup : texts.Nodup) (hsub : texts ⊆ texts') :
    extent texts ≤ extent texts' := by
  obtain ⟨front, hperm, hfront⟩ := List.subperm_of_subset hnodup hsub
  rw [← extent_perm hperm]
  exact extent_le_of_sublist hfront

end

section

variable {current s : List Char} {tokens : List String}

theorem length_linesFrom_le (current s : List Char) :
    (Text.linesFrom current s).length ≤ current.length + s.length := by
  induction s generalizing current with
  | nil =>
    rw [Text.linesFrom]
    cases current with
    | nil => exact Nat.le_refl _
    | cons c current => simp
  | cons c s ih =>
    rw [Text.linesFrom, List.length_cons]
    split
    next =>
      have hrest := ih []
      rw [List.length_nil] at hrest
      rw [List.length_cons]
      omega
    next =>
      have hrest := ih (current ++ [c])
      rw [List.length_append, List.length_singleton] at hrest
      omega

theorem extent_linesFrom_le (current s : List Char) :
    extent (Text.linesFrom current s) ≤ byteLength current + byteLength s := by
  induction s generalizing current with
  | nil =>
    rw [Text.linesFrom]
    cases current with
    | nil => exact Nat.le_refl _
    | cons c current => exact Nat.le_refl _
  | cons c s ih =>
    have hchomp : byteLength (Text.chomp current) ≤ byteLength current := by
      rw [Text.chomp]
      split
      next => exact byteLength_le_of_sublist (List.dropLast_sublist current)
      next => exact Nat.le_refl _
    rw [Text.linesFrom, byteLength]
    split
    next =>
      have hrest := ih []
      rw [byteLength] at hrest
      rw [extent_cons]
      omega
    next =>
      have hrest := ih (current ++ [c])
      rw [byteLength_concat] at hrest
      omega

theorem extent_significant_le (raws : List (List Char)) : extent (significant raws) ≤ extent raws := by
  induction raws with
  | nil => exact Nat.le_refl _
  | cons raw raws ih =>
    have hraw := byteLength_le_of_sublist (strip_sublist raw)
    rw [significant_cons, extent_cons]
    split
    next => omega
    next =>
      rw [extent_cons]
      omega

theorem extent_significantLines_le (source : String) :
    extent ((significantLines source).map Line.text) ≤ byteLength source.toList := by
  rw [text_significantLines]
  refine (extent_significant_le _).trans ?_
  have hlines := extent_linesFrom_le [] source.toList
  rwa [byteLength, Nat.zero_add] at hlines

/-- The number of bytes of some tokens, each with a separator. -/
def spread : List String → Nat
  | [] => 0
  | t :: rest => byteLength t.toList + 1 + spread rest

theorem le_spread {t : String} (h : t ∈ tokens) : byteLength t.toList + 1 ≤ spread tokens := by
  induction tokens with
  | nil => cases h
  | cons t' tokens ih =>
    rw [spread]
    rcases List.mem_cons.mp h with rfl | hrest
    · exact Nat.le_add_right _ _
    · exact (ih hrest).trans (Nat.le_add_left _ _)

theorem spread_consToken_le (current : List Char) (tokens : List String) :
    spread (consToken current tokens) ≤ byteLength current + 1 + spread tokens := by
  rw [consToken]
  split
  next => omega
  next => rw [spread, String.toList_ofList]

theorem spread_tokensFrom_le {quoted : Bool} (h : tokensFrom current quoted s = some tokens) :
    spread tokens ≤ byteLength current + byteLength s + 1 := by
  induction s generalizing current quoted tokens with
  | nil =>
    have hlast := spread_consToken_le current []
    rw [tokensFrom] at h
    split at h
    next => cases h
    next =>
      obtain rfl := Option.some.inj h
      rw [spread] at hlast
      rw [byteLength]
      omega
  | cons c s ih =>
    have hsize := c.utf8Size_pos
    have hconcat := byteLength_concat current c
    rw [tokensFrom] at h
    rw [byteLength]
    split at h
    next =>
      have hrest := ih h
      omega
    next =>
      split at h
      next =>
        obtain ⟨later, hlater, rfl⟩ := Option.map_eq_some_iff.mp h
        have hrest := ih hlater
        have hfront := spread_consToken_le current later
        rw [byteLength] at hrest
        omega
      next =>
        have hrest := ih h
        omega

theorem spread_tokens?_le (h : tokens? s = some tokens) : spread tokens ≤ byteLength s + 1 := by
  have hspread := spread_tokensFrom_le h
  rwa [byteLength, Nat.zero_add] at hspread

end

namespace Macro

open Assembly.Macro

variable {name : String} {text : List Char} {more : Bool}

theorem byteLength_bodyLine_le {tokens : List String} (h : bodyLine name tokens = .ok (text, more)) :
    byteLength text + 1 ≤ spread tokens := by
  obtain ⟨literal, hmem, inner, hinner, rfl⟩ := exists_literal h
  have hstrip := (strip_sublist inner).trans (unquote?_sublist hinner)
  exact (Nat.add_le_add_right (byteLength_le_of_sublist hstrip) 1).trans (le_spread hmem)

theorem byteLength_continued_le {line : List Char} (h : continued name line = .ok (text, more)) :
    byteLength text ≤ byteLength line := by
  obtain ⟨tokens, htokens, hbody⟩ := continued_eq_ok_iff.mp h
  have hspread := spread_tokens?_le htokens
  have htext := byteLength_bodyLine_le hbody
  omega

theorem byteLength_header_le {line : List Char} (h : header line = .ok (name, text, more)) :
    byteLength text ≤ byteLength line := by
  obtain ⟨tokens, htokens, -, hbody⟩ := header_eq_ok_iff.mp h
  have hspread := spread_tokens?_le htokens
  rw [spread, spread] at hspread
  have htext := byteLength_bodyLine_le hbody
  omega

/-- The texts outside of definitions, and those of the macros. -/
def texts (c : Collected) : List (List Char) :=
  c.rest.map Line.text ++ c.macros.flatMap Assembly.Macro.body

/-- The number of bytes of what has been found so far, with the definition that goes on. -/
def weight (c : Collected) : Nat :=
  extent (texts c) + extent (c.pending.toList.flatMap Assembly.Macro.body)

theorem weight_of_none (c : Collected) (h : c.pending = none) : weight c = extent (texts c) := by
  rw [weight, h]
  rfl

theorem weight_of_some {c : Collected} {m : Assembly.Macro} (h : c.pending = some m) :
    weight c = extent (texts c) + extent m.body := by
  rw [weight, h, Option.toList_some, List.flatMap_singleton]

theorem weight_complete_le (c : Collected) (m : Assembly.Macro) :
    weight (c.complete m) ≤ extent (texts c) + extent m.body := by
  rw [Collected.complete]
  split
  next =>
    rw [weight_of_none _ rfl]
    exact Nat.le_add_right _ _
  next =>
    have hbody : extent (m.body.filter (· ≠ [])) ≤ extent m.body :=
      extent_le_of_sublist List.filter_sublist
    rw [weight_of_none _ rfl, texts, List.flatMap_append, List.flatMap_singleton, ← List.append_assoc,
      extent_append]
    exact Nat.add_le_add_left hbody _

theorem weight_extend_le (c : Collected) (m : Assembly.Macro) (text : List Char) (more : Bool) :
    weight (c.extend m text more) ≤ extent (texts c) + extent m.body + byteLength text := by
  have hbody : extent (m.body ++ [text]) = extent m.body + byteLength text := extent_append _ _
  rw [Nat.add_assoc, ← hbody, Collected.extend]
  split
  next =>
    change extent (texts c) + extent (m.body ++ [text] ++ []) ≤ _
    rw [List.append_nil]
  next => exact weight_complete_le c { m with body := m.body ++ [text] }

theorem weight_step_le (c : Collected) (l : Line) : weight (c.step l) ≤ weight c + byteLength l.text := by
  unfold Collected.step
  split
  next m hpending =>
    rw [weight_of_some hpending]
    split
    next text more hcontinued =>
      have hextend := weight_extend_le c m text more
      have htext := byteLength_continued_le hcontinued
      omega
    next =>
      rw [weight_of_none _ rfl]
      exact (Nat.le_add_right _ _).trans (Nat.le_add_right _ _)
  next hpending =>
    rw [weight_of_none c hpending]
    split
    next =>
      split
      next name first more hheader =>
        have hextend := weight_extend_le c ⟨name, [], l.number⟩ first more
        have hfirst := byteLength_header_le hheader
        rw [extent_nil] at hextend
        omega
      next => exact Nat.le_trans (Nat.le_of_eq (weight_of_none _ hpending)) (Nat.le_add_right _ _)
    next =>
      have hperm : (texts { c with rest := c.rest ++ [l] }).Perm (texts c ++ [l.text]) := by
        rw [texts, texts, List.map_append, List.append_assoc, List.append_assoc]
        exact List.perm_append_comm.append_left _
      refine Nat.le_of_eq ((weight_of_none { c with rest := c.rest ++ [l] } hpending).trans ?_)
      rw [extent_perm hperm, extent_append]
      rfl

/-- Definitions are kept where they are, and so are the lines outside of them. -/
theorem extent_texts_le (ls : List Line) : extent (texts (collect ls)) ≤ extent (ls.map Line.text) := by
  have hfold : ∀ c : Collected, weight (ls.foldl Collected.step c) ≤ weight c + extent (ls.map Line.text) := by
    induction ls with
    | nil => exact fun c => Nat.le_refl _
    | cons l ls ih =>
      intro c
      have hstep := weight_step_le c l
      have hrest := ih (c.step l)
      rw [List.foldl_cons, List.map_cons, extent_cons]
      omega
  have hfinish : ∀ c : Collected, texts c.finish = texts c := by
    intro c
    rw [Collected.finish]
    split <;> rfl
  have hempty : weight {} = 0 := rfl
  have hall := hfold {}
  rw [hempty, Nat.zero_add] at hall
  rw [collect, hfinish]
  exact (Nat.le_add_right _ _).trans hall

/-- Whatever a line stands for is a line outside of definitions or one of a macro. -/
theorem text_mem_texts {ls : List Line} {l : Line} (h : l ∈ (expandLines ls).lines) :
    l.text ∈ texts (collect ls) := by
  unfold expandLines at h
  dsimp only at h
  split at h
  next =>
    obtain ⟨result, hresult, hl⟩ := List.mem_flatMap.mp h
    obtain ⟨source, hsource, rfl⟩ := List.mem_map.mp hresult
    unfold expandLine at hl
    split at hl
    next =>
      obtain rfl := List.mem_singleton.mp hl
      exact List.mem_append_left _ (List.mem_map_of_mem hsource)
    next =>
      split at hl
      next m hm =>
        obtain ⟨text, htext, rfl⟩ := List.mem_map.mp hl
        exact List.mem_append_right _ (List.mem_flatMap.mpr ⟨m, List.mem_of_find?_eq_some hm, htext⟩)
      next => cases hl
  next => cases h

end Macro

/-- The texts of a source, in which macros are not yet replaced by their lines. -/
def texts (source : String) : List (List Char) :=
  Macro.texts (Assembly.Macro.collect (significantLines source))

theorem extent_texts_le (source : String) : extent (texts source) ≤ source.utf8ByteSize := by
  rw [← byteLength_toList]
  exact (Macro.extent_texts_le _).trans (extent_significantLines_le source)

/-- The directive is all of the text. -/
def Holds (text : List Char) (directive : Directive) : Prop :=
  tokens? text = some directive.tokens

section

variable {o : Outline} {line : Nat} {head : String} {arguments : List String} {directive : Directive}

theorem directives_addLabel (o : Outline) (line : Nat) (name : String) (arguments : List String) :
    (o.addLabel line name arguments).directives = o.directives := by
  unfold Assembly.Outline.addLabel
  split
  next => rfl
  next =>
    split
    next => rfl
    next =>
      split
      next => rfl
      next =>
        dsimp only
        split
        next => rfl
        next => split <;> rfl

theorem mem_directives_addDirective
    (h : directive ∈ (o.addDirective line head arguments).directives) :
    directive ∈ o.directives ∨ directive = ⟨line, head, arguments⟩ := by
  unfold Assembly.Outline.addDirective at h
  split at h
  next =>
    left
    dsimp only at h
    split at h
    next => exact h
    next => split at h <;> exact h
  next =>
    split at h
    next => exact .inl h
    next => exact (List.mem_append.mp h).imp id List.mem_singleton.mp

theorem mem_directives_addTokens (h : directive ∈ (o.addTokens line head arguments).directives) :
    directive ∈ o.directives ∨ directive = ⟨line, head, arguments⟩ := by
  unfold Assembly.Outline.addTokens at h
  split at h
  next => exact mem_directives_addDirective h
  next =>
    split at h
    next => exact .inl h
    next =>
      split at h
      next =>
        rw [directives_addLabel] at h
        exact .inl h
      next => split at h <;> exact .inl h

/-- A line adds at most the directive that it holds. -/
theorem mem_directives_addLine {l : Line} (h : directive ∈ (o.addLine l).directives) :
    directive ∈ o.directives ∨ Holds l.text directive := by
  unfold Assembly.Outline.addLine at h
  split at h
  next => exact .inl h
  next => exact .inl h
  next head arguments htokens =>
    refine (mem_directives_addTokens h).imp_right ?_
    rintro rfl
    exact htokens

end

/-- A directive of a program is all of a line. -/
theorem holds_of_mem_directives {ls : List Line} {directive : Directive}
    (h : directive ∈ (Assembly.Outline.ofLines ls).directives) : ∃ l ∈ ls, Holds l.text directive := by
  have hfold : ∀ o : Outline, directive ∈ (ls.foldl Assembly.Outline.addLine o).directives →
      directive ∈ o.directives ∨ ∃ l ∈ ls, Holds l.text directive := by
    clear h
    induction ls with
    | nil => exact fun o h => .inl h
    | cons l ls ih =>
      intro o h
      rcases ih (o.addLine l) h with hfirst | ⟨l', hl', hholds⟩
      · rcases mem_directives_addLine hfirst with hold | hholds
        · exact .inl hold
        · exact .inr ⟨l, List.mem_cons_self, hholds⟩
      · exact .inr ⟨l', List.mem_cons_of_mem l hl', hholds⟩
  have hfinish : ∀ o : Outline, o.finish.directives = o.directives := by
    intro o
    rw [Assembly.Outline.finish]
    split <;> rfl
  rw [Assembly.Outline.ofLines, hfinish] at h
  rcases hfold {} h with hnone | hline
  · cases hnone
  · exact hline

namespace Declarations

open Assembly.Declarations

variable {o : Outline} {d d' : Declarations} {directive : Directive} {text : List Char}
  {texts : List (List Char)} {cs : List NamedConstant}

/-- The directive and the text of a constant are not shorter than it is, with three separators. -/
theorem poolSize_gives_le {t : ConstantType} {text : String} {value : Constant} (h : t.Gives text value) :
    value.poolSize ≤ byteLength t.directive.toList + byteLength text.toList + 3 := by
  cases h with
  | @integer t _ z hdenotes =>
    have htext : 0 < byteLength text.toList :=
      lt_of_lt_of_le (List.length_pos_iff.mpr hdenotes.ne_nil) (length_le_byteLength text.toList)
    have hdirective : (t.constant z).poolSize ≤ byteLength t.directive.toList + 4 := by
      cases t <;> exact Nat.le_of_ble_eq_true rfl
    change (t.constant z).poolSize ≤ byteLength t.directive.toList + _ + 3
    omega
  | float =>
    have hdirective : 8 ≤ byteLength (ConstantType.directive .float).toList + 3 := by decide
    exact hdirective.trans (by omega)
  | @string s =>
    change s.utf8ByteSize ≤ _
    rw [← byteLength_toList]
    have hsub : s.toList.Sublist ("\"" ++ s ++ "\"").toList := by
      rw [String.toList_append, String.toList_append]
      exact (List.sublist_append_right _ _).trans (List.sublist_append_left _ _)
    have hle := byteLength_le_of_sublist hsub
    omega

/-- A text that declares a constant is not shorter than the constant. -/
theorem poolSize_declared_le {line : ConstantLine} {value : Constant}
    (htokens : tokens? text = some (Declaration.constant line).tokens)
    (hname : isIdentifier line.name.toList = true) (h : line.type.Gives line.text value) :
    value.poolSize ≤ byteLength text := by
  have hspread := spread_tokens?_le htokens
  have hgives := poolSize_gives_le h
  have hlength := length_le_byteLength line.name.toList
  have hpos : 0 < line.name.toList.length := by
    refine List.length_pos_iff.mpr fun hempty => ?_
    rw [hempty] at hname
    cases hname
  rw [Declaration.tokens, spread, spread, spread, spread] at hspread
  omega

theorem constants_setEntry {isFirst : Bool} {head : String} {arguments : List String}
    (h : d.setEntry o isFirst head arguments = .ok d') : d'.constants = d.constants := by
  unfold setEntry at h
  split at h
  next => cases h
  next =>
    split at h
    next =>
      split at h
      next =>
        obtain rfl := Except.ok.inj h
        rfl
      next => cases h
    next => cases h

/-- A directive declares one more constant or none. -/
theorem constants_add_cases {isFirst : Bool} (h : d.add o isFirst directive = .ok d') :
    d'.constants = d.constants ∨ ∃ line value, directive.tokens = (Declaration.constant line).tokens ∧
      isIdentifier line.name.toList ∧ line.type.Gives line.text value ∧
      line.name ∉ d.constants.map NamedConstant.name ∧
      d'.constants = d.constants ++ [⟨line.name, value⟩] := by
  by_cases hinit : directive.head = ".init"
  · simp only [Assembly.Declarations.add, hinit] at h
    exact .inl (constants_setEntry h)
  · have hlater : d.add o false directive = .ok d' := by
      rw [← h]
      unfold Assembly.Declarations.add
      split
      next hhead => exact absurd hhead hinit
      next => rfl
      next => rfl
    rcases add_cases hlater with ⟨_, _, -, -, -, rfl⟩ | ⟨line, value, htokens, hname, hgives, hnew, -, rfl⟩
    · exact .inl rfl
    · exact .inr ⟨line, value, htokens, hname, hgives, hnew, rfl⟩

/-- The text declares a constant of this name, and is not shorter than the constant. -/
def Covers (text : List Char) (c : NamedConstant) : Prop :=
  c.value.poolSize ≤ byteLength text ∧
    ∃ line : ConstantLine, tokens? text = some (Declaration.constant line).tokens ∧ line.name = c.name

/-- Each of these constants has been declared by a text of its own. -/
def Within (texts : List (List Char)) (cs : List NamedConstant) : Prop :=
  ∃ own : List (List Char × NamedConstant), own.map Prod.snd = cs ∧ (own.map Prod.fst).Nodup ∧
    own.map Prod.fst ⊆ texts ∧ ∀ e ∈ own, Covers e.1 e.2

theorem Within.poolSize_le (h : Within texts cs) : poolSize cs ≤ extent texts := by
  obtain ⟨own, rfl, hnodup, hsub, hcovers⟩ := h
  refine le_trans ?_ (extent_le_of_nodup hnodup hsub)
  clear hnodup hsub
  induction own with
  | nil => exact Nat.le_refl _
  | cons e own ih =>
    obtain ⟨he, hown⟩ := List.forall_mem_cons.mp hcovers
    exact Nat.add_le_add he.1 (ih hown)

theorem Within.step {isFirst : Bool} (h : Within texts d.constants) (htext : text ∈ texts)
    (hholds : Holds text directive) : Within texts (d.step o isFirst directive).constants := by
  rw [Assembly.Declarations.step]
  cases hadd : d.add o isFirst directive with
  | error cause => exact h
  | ok d' =>
    rcases constants_add_cases hadd with hsame | ⟨line, value, htokens, hname, hgives, hnew, hmore⟩
    · rwa [← hsame] at h
    · obtain ⟨own, hown, hnodup, hsub, hcovers⟩ := h
      have hline : tokens? text = some (Declaration.constant line).tokens := htokens ▸ hholds
      -- Had the text declared a constant before, the name would be the same.
      have hfresh : text ∉ own.map Prod.fst := by
        intro hmem
        obtain ⟨e, he, rfl⟩ := List.mem_map.mp hmem
        obtain ⟨-, line', hline', hsame⟩ := hcovers e he
        have hlines := Declaration.tokens_injective (Option.some.inj (hline.symm.trans hline'))
        obtain rfl := Declaration.constant.inj hlines
        refine hnew (List.mem_map.mpr ⟨e.2, ?_, hsame.symm⟩)
        rw [← hown]
        exact List.mem_map_of_mem he
      refine ⟨own ++ [(text, ⟨line.name, value⟩)], ?_, ?_, ?_, ?_⟩
      · rw [List.map_append, hown]
        exact hmore.symm
      · rw [List.map_append, List.nodup_append_comm]
        exact List.nodup_cons.mpr ⟨hfresh, hnodup⟩
      · rw [List.map_append]
        exact List.append_subset.mpr ⟨hsub, by simpa using htext⟩
      · refine List.forall_mem_append.mpr ⟨hcovers, List.forall_mem_singleton.mpr ?_⟩
        exact ⟨poolSize_declared_le hline hname hgives, line, hline, rfl⟩

end Declarations

end RegisterMachine.Checked
