import Mathlib
import RegisterMachine.Proofs.Assembly.Lines
import RegisterMachine.Proofs.Assembly.Outline
import RegisterMachine.Proofs.Except

namespace RegisterMachine.Assembly.Macro

/-- These lines go on with the definition of a macro until it ends, and hold these texts. -/
inductive Continues (name : String) : List (List Char) → List (List Char) → Prop
  | last {line text : List Char} : continued name line = .ok (text, false) →
      Continues name [line] [text]
  | more {line text : List Char} {lines texts : List (List Char)} :
      continued name line = .ok (text, true) → Continues name lines texts →
      Continues name (line :: lines) (text :: texts)

/-- These lines are the definition of a macro with this name, and hold these texts. -/
inductive Defines : List (List Char) → String → List (List Char) → Prop
  | single {line text : List Char} {name : String} : keyword.toList <+: line →
      header line = .ok (name, text, false) → Defines [line] name [text]
  | more {line text : List Char} {name : String} {lines texts : List (List Char)} :
      keyword.toList <+: line → header line = .ok (name, text, true) → Continues name lines texts →
      Defines (line :: lines) name (text :: texts)

/-- A line of a source text that does not start a definition. -/
structure PlainLine where
  raw : List Char
  not_mem : '\n' ∉ raw
  plain : ¬ keyword.toList <+: strip raw

/-- The lines of a source text that define a macro; blank lines and comments may be among them. -/
structure Definition where
  raws : List (List Char)
  name : String
  texts : List (List Char)
  not_mem : ∀ raw ∈ raws, '\n' ∉ raw
  defines : Defines (significant raws) name texts

namespace Definition

/-- The lines that the macro stands for. -/
def body (d : Definition) : List (List Char) :=
  d.texts.filter (· ≠ [])

end Definition

/-- A line of a source text or a whole definition. -/
inductive Part where
  | plain (l : PlainLine)
  | definition (d : Definition)

namespace Part

def raws : Part → List (List Char)
  | plain l => [l.raw]
  | definition d => d.raws

def plain? : Part → Option PlainLine
  | plain l => some l
  | definition _ => none

def definition? : Part → Option Definition
  | plain _ => none
  | definition d => some d

theorem not_mem_raws {p : Part} {raw : List Char} (h : raw ∈ p.raws) : '\n' ∉ raw := by
  cases p with
  | plain l =>
    obtain rfl := List.mem_singleton.mp h
    exact l.not_mem
  | definition d => exact d.not_mem raw h

end Part

/-- The source text with these parts. -/
def joined (parts : List Part) : String :=
  String.ofList (['\n'].intercalate (parts.flatMap Part.raws))

/-- The lines outside definitions. -/
def plainTexts (parts : List Part) : List (List Char) :=
  significant ((parts.filterMap Part.plain?).map PlainLine.raw)

def definitions (parts : List Part) : List Definition :=
  parts.filterMap Part.definition?

/-- The other parts have the same lines in the same order, and the same definitions anywhere between
them. -/
structure Moved (parts parts' : List Part) : Prop where
  plain : parts'.filterMap Part.plain? = parts.filterMap Part.plain?
  definitions : (definitions parts').Perm (definitions parts)

/-- What a line stands for: itself, or the lines of the macro that it uses. -/
inductive Stands (ds : List Definition) : List Char → List (List Char) → Prop
  | self {text : List Char} : invoked? text = none → Stands ds text [text]
  | body {text : List Char} {d : Definition} : d ∈ ds → invoked? text = some d.name →
      Stands ds text d.body

/-- No macro is defined twice, and these are the lines that the lines outside definitions stand for. -/
def Inlines (parts : List Part) (texts : List (List Char)) : Prop :=
  ((definitions parts).map Definition.name).Nodup ∧
    ∃ bodies, List.Forall₂ (Stands (definitions parts)) (plainTexts parts) bodies ∧
      bodies.flatten = texts

theorem Inlines.moved {parts parts' : List Part} {texts : List (List Char)} (h : Inlines parts texts)
    (hmoved : Moved parts parts') : Inlines parts' texts := by
  obtain ⟨hnodup, bodies, hbodies, htexts⟩ := h
  refine ⟨(hmoved.definitions.map _).nodup_iff.mpr hnodup, bodies, ?_, htexts⟩
  rw [plainTexts, hmoved.plain]
  refine hbodies.imp fun text body hstands => ?_
  cases hstands with
  | self hinvoked => exact .self hinvoked
  | body hd hinvoked => exact .body (hmoved.definitions.mem_iff.mpr hd) hinvoked

/-- What a use of the macro finds. -/
def entry (m : Macro) : String × List (List Char) :=
  (m.name, m.body)

def Definition.entry (d : Definition) : String × List (List Char) :=
  (d.name, d.body)

/-- The first macro with a name is the one that is bound to it. -/
theorem exists_find?_iff {ms : List Macro} {name : String} {body : List (List Char)}
    (hnodup : ((ms.map entry).map Prod.fst).Nodup) :
    (∃ m, ms.find? (·.name == name) = some m ∧ m.body = body) ↔ (name, body) ∈ ms.map entry := by
  constructor
  · rintro ⟨m, hfind, rfl⟩
    have hname : m.name = name := by simpa using List.find?_some hfind
    exact List.mem_map.mpr ⟨m, List.mem_of_find?_eq_some hfind, by rw [entry, hname]⟩
  · intro hmem
    obtain ⟨m, hm, hentry⟩ := List.mem_map.mp hmem
    obtain ⟨rfl, rfl⟩ := Prod.mk.inj hentry
    have hsome : (ms.find? (·.name == m.name)).isSome :=
      List.find?_isSome.mpr ⟨m, hm, beq_self_eq_true _⟩
    obtain ⟨m', hfind⟩ := Option.isSome_iff_exists.mp hsome
    have hname : m'.name = m.name := by simpa using List.find?_some hfind
    rw [List.map_map] at hnodup
    obtain rfl := List.inj_on_of_nodup_map hnodup (List.mem_of_find?_eq_some hfind) hm hname
    exact ⟨m', hfind, rfl⟩

/-- A line that does not look like the start of a definition. -/
def Plain (text : List Char) : Prop :=
  ¬ keyword.toList <+: text

instance (text : List Char) : Decidable (Plain text) :=
  inferInstanceAs (Decidable (¬ keyword.toList <+: text))

/-- Lines that consist of whole definitions and of plain lines between them, together with the plain
lines and with what the definitions bind. Which lines are plain and what a definition is, is given. -/
inductive Laid (IsPlain : List Char → Prop)
    (IsDefinition : List (List Char) → String → List (List Char) → Prop) :
    List Line → List Line → List (String × List (List Char)) → Prop
  | nil : Laid IsPlain IsDefinition [] [] []
  | line {l : Line} {ls rest : List Line} {ds : List (String × List (List Char))} :
      IsPlain l.text → Laid IsPlain IsDefinition ls rest ds →
      Laid IsPlain IsDefinition (l :: ls) (l :: rest) ds
  | definition {front ls rest : List Line} {name : String} {texts : List (List Char)}
      {ds : List (String × List (List Char))} : IsDefinition (front.map Line.text) name texts →
      Laid IsPlain IsDefinition ls rest ds →
      Laid IsPlain IsDefinition (front ++ ls) rest ((name, texts.filter (· ≠ [])) :: ds)

/-- The lines of some parts are laid out as the parts tell. -/
theorem exists_laid {parts : List Part} {ls : List Line}
    (hls : ls.map Line.text = significant (parts.flatMap Part.raws)) :
    ∃ rest, Laid Plain Defines ls rest ((definitions parts).map Definition.entry) ∧
      rest.map Line.text = plainTexts parts := by
  induction parts generalizing ls with
  | nil =>
    obtain rfl := List.map_eq_nil_iff.mp hls
    exact ⟨[], .nil, rfl⟩
  | cons p parts ih =>
    rw [List.flatMap_cons, significant_append] at hls
    obtain ⟨front, back, rfl, hfront, hback⟩ := List.map_eq_append_iff.mp hls
    obtain ⟨rest, hlaid, hrest⟩ := ih hback
    cases p with
    | plain l =>
      have htexts : (front ++ rest).map Line.text = plainTexts (.plain l :: parts) := by
        rw [List.map_append, hfront, hrest]
        exact significant_append.symm
      refine ⟨front ++ rest, ?_, htexts⟩
      rw [Part.raws, significant_cons] at hfront
      -- a blank line is a part of its own, but no line is left of it
      by_cases hempty : strip l.raw = []
      · rw [if_pos hempty] at hfront
        obtain rfl := List.map_eq_nil_iff.mp hfront
        exact hlaid
      · rw [if_neg hempty] at hfront
        obtain ⟨l', rfl, hl'⟩ := List.map_eq_singleton_iff.mp hfront
        have hplain : Plain l'.text := hl' ▸ l.plain
        exact .line hplain hlaid
    | definition d => exact ⟨rest, .definition (hfront ▸ d.defines) hlaid, hrest⟩

/-- A line of a definition is a string, or a string and the continuation mark. -/
theorem bodyLine_eq_ok_iff {name : String} {tokens : List String} {text : List Char} {more : Bool} :
    bodyLine name tokens = .ok (text, more) ↔
      ∃ literal inner, unquote? literal = some inner ∧ strip inner = text ∧
        (tokens = [literal] ∧ more = false ∨ tokens = [literal, continuation] ∧ more = true) := by
  constructor
  · intro h
    unfold bodyLine at h
    split at h
    next literal =>
      cases hinner : unquote? literal with
      | none =>
        simp only [hinner] at h
        cases h
      | some inner =>
        simp only [hinner] at h
        cases h
        exact ⟨literal, inner, hinner, rfl, .inl ⟨rfl, rfl⟩⟩
    next literal mark =>
      cases hinner : unquote? literal with
      | none =>
        simp only [hinner] at h
        cases h
      | some inner =>
        simp only [hinner, Except.bind_eq_ok_iff, Except.ok.injEq, exists_eq_left'] at h
        split at h
        next hmark =>
          cases h
          exact ⟨literal, inner, hinner, rfl, .inr ⟨by rw [hmark], rfl⟩⟩
        next => cases h
    next => cases h
  · rintro ⟨literal, inner, hinner, rfl, ⟨rfl, rfl⟩ | ⟨rfl, rfl⟩⟩ <;>
      simp only [bodyLine, hinner] <;> rfl

theorem continued_eq_ok_iff {name : String} {line : List Char} {found : List Char × Bool} :
    continued name line = .ok found ↔
      ∃ tokens, tokens? line = some tokens ∧ bodyLine name tokens = .ok found := by
  unfold continued
  cases tokens? line <;> simp

/-- A definition starts with the keyword, the name and a line. -/
theorem header_eq_ok_iff {line : List Char} {name : String} {text : List Char} {more : Bool} :
    header line = .ok (name, text, more) ↔ ∃ tokens, tokens? line = some (keyword :: name :: tokens) ∧
      isIdentifier name.toList = true ∧ bodyLine name tokens = .ok (text, more) := by
  constructor
  · intro h
    unfold header at h
    split at h
    next => cases h
    next word name' tokens htokens =>
      split at h
      next hword =>
        split at h
        next hname =>
          obtain ⟨found, hbody, hresult⟩ := Except.bind_eq_ok_iff.mp h
          cases hresult
          exact ⟨tokens, hword.1 ▸ htokens, hname, hbody⟩
        next => cases h
      next => cases h
    next => cases h
  · rintro ⟨tokens, htokens, hname, hbody⟩
    have hlength : tokens.length = 1 ∨ tokens.length = 2 := by
      obtain ⟨literal, inner, -, -, ⟨rfl, -⟩ | ⟨rfl, -⟩⟩ := bodyLine_eq_ok_iff.mp hbody
      · exact .inl rfl
      · exact .inr rfl
    simp only [header, htokens, hlength, hname, hbody, and_self, if_true]
    rfl

/-- A text of a definition stands between quotes, as one of the tokens. -/
theorem exists_literal {name : String} {tokens : List String} {text : List Char} {more : Bool}
    (h : bodyLine name tokens = .ok (text, more)) :
    ∃ literal ∈ tokens, ∃ inner, unquote? literal = some inner ∧ strip inner = text := by
  obtain ⟨literal, inner, hinner, htext, ⟨rfl, -⟩ | ⟨rfl, -⟩⟩ := bodyLine_eq_ok_iff.mp h
  · exact ⟨literal, List.mem_cons_self, inner, hinner, htext⟩
  · exact ⟨literal, List.mem_cons_self, inner, hinner, htext⟩

namespace Collected

variable {c : Collected} {m : Macro} {l : Line} {ls : List Line} {name : String}
  {lines texts : List (List Char)}

theorem complete_pending (p : Option Macro) : { c with pending := p }.complete m = c.complete m := by
  rw [complete, complete]

theorem foldl_continues (h : Continues name lines texts) (hpending : c.pending = some m)
    (hname : m.name = name) (hls : ls.map Line.text = lines) :
    ls.foldl step c = c.complete { m with body := m.body ++ texts } := by
  induction h generalizing c m ls with
  | last hcontinued =>
    obtain ⟨l, rfl, rfl⟩ := List.map_eq_singleton_iff.mp hls
    rw [List.foldl_cons, List.foldl_nil, step, hpending]
    simp only [hname, hcontinued, extend, Bool.false_eq_true, if_false]
  | @more _ text _ _ hcontinued _ ih =>
    obtain ⟨l, ls, rfl, rfl, hrest⟩ := List.map_eq_cons_iff.mp hls
    have hstep : step c l = { c with pending := some { m with body := m.body ++ [text] } } := by
      rw [step, hpending]
      simp only [hname, hcontinued, extend, if_true]
    rw [List.foldl_cons, hstep, ih (m := { m with body := m.body ++ [text] }) rfl hname hrest,
      complete_pending, List.append_assoc, List.singleton_append]

/-- The lines of a definition complete a macro. -/
theorem foldl_defines (h : Defines lines name texts) (hpending : c.pending = none)
    (hls : ls.map Line.text = lines) :
    ∃ number, ls.foldl step c = c.complete ⟨name, texts, number⟩ := by
  cases h with
  | single hkeyword hheader =>
    obtain ⟨l, rfl, rfl⟩ := List.map_eq_singleton_iff.mp hls
    refine ⟨l.number, ?_⟩
    rw [List.foldl_cons, List.foldl_nil, step, hpending]
    simp only [List.isPrefixOf_iff_prefix.mpr hkeyword, hheader, extend, if_true,
      Bool.false_eq_true, if_false, List.nil_append]
  | @more _ text _ _ _ hkeyword hheader hcontinues =>
    obtain ⟨l, ls, rfl, rfl, hrest⟩ := List.map_eq_cons_iff.mp hls
    refine ⟨l.number, ?_⟩
    have hstep : step c l = { c with pending := some ⟨name, [text], l.number⟩ } := by
      rw [step, hpending]
      simp only [List.isPrefixOf_iff_prefix.mpr hkeyword, hheader, extend, if_true, List.nil_append]
    rw [List.foldl_cons, hstep, foldl_continues hcontinues rfl rfl hrest, complete_pending,
      List.singleton_append]

theorem step_plain (hpending : c.pending = none) (hplain : Plain l.text) :
    step c l = { c with rest := c.rest ++ [l] } := by
  have hkeyword : ¬ keyword.toList.isPrefixOf l.text = true := fun h =>
    hplain (List.isPrefixOf_iff_prefix.mp h)
  rw [step, hpending]
  exact if_neg hkeyword

theorem errors_complete (h : (c.complete m).errors = []) :
    c.errors = [] ∧ m.name ∉ c.macros.map Macro.name := by
  unfold complete at h
  split at h
  next => exact absurd h (by simp)
  next hnew => exact ⟨h, any_beq_iff_mem_map.not.mp hnew⟩

theorem complete_new (h : m.name ∉ c.macros.map Macro.name) : c.complete m =
    { c with macros := c.macros ++ [{ m with body := m.body.filter (· ≠ []) }], pending := none } := by
  rw [complete, if_neg (any_beq_iff_mem_map.not.mpr h)]

/-- An error that was found stays. -/
theorem errors_step (h : (c.step l).errors = []) : c.errors = [] := by
  have hextend : ∀ m text more, (c.extend m text more).errors = [] → c.errors = [] := by
    intro m text more herrors
    rw [extend] at herrors
    cases more with
    | true => exact herrors
    | false => exact (errors_complete herrors).1
  unfold step at h
  split at h
  next =>
    split at h
    next => exact hextend _ _ _ h
    next => exact (List.append_eq_nil_iff.mp h).1
  next =>
    split at h
    next =>
      split at h
      next => exact hextend _ _ _ h
      next => exact (List.append_eq_nil_iff.mp h).1
    next => exact h

theorem errors_foldl (h : (ls.foldl step c).errors = []) : c.errors = [] := by
  induction ls generalizing c with
  | nil => exact h
  | cons l ls ih => exact errors_step (ih h)

theorem finish_of_errors (h : c.finish.errors = []) : c.finish = c ∧ c.pending = none := by
  unfold finish at h ⊢
  cases hpending : c.pending with
  | none => exact ⟨rfl, rfl⟩
  | some m =>
    rw [hpending] at h
    exact absurd h (by simp)

section

variable {rest : List Line} {ds : List (String × List (List Char))}

/-- What lines add, if no macro is defined twice. -/
theorem foldl_laid (h : Laid Plain Defines ls rest ds) (hpending : c.pending = none)
    (hnodup : (c.macros.map Macro.name ++ ds.map Prod.fst).Nodup) :
    ∃ macros, ls.foldl step c = { c with rest := c.rest ++ rest, macros := c.macros ++ macros } ∧
      macros.map entry = ds := by
  induction h generalizing c with
  | nil =>
    refine ⟨[], ?_, rfl⟩
    rw [List.append_nil, List.append_nil]
    rfl
  | @line l _ rest _ hplain _ ih =>
    obtain ⟨macros, hfold, hmacros⟩ := ih (c := { c with rest := c.rest ++ [l] }) hpending hnodup
    refine ⟨macros, ?_, hmacros⟩
    rw [List.foldl_cons, step_plain hpending hplain, hfold, List.append_assoc, List.singleton_append]
  | @definition front _ rest name texts ds hdefines _ ih =>
    obtain ⟨number, hstep⟩ := foldl_defines hdefines hpending rfl
    have hnew : name ∉ c.macros.map Macro.name := fun hmem =>
      (List.nodup_append.mp hnodup).2.2 _ hmem _ List.mem_cons_self rfl
    let m : Macro := ⟨name, texts.filter (· ≠ []), number⟩
    have hnext : ((c.macros ++ [m]).map Macro.name ++ ds.map Prod.fst).Nodup := by
      rw [List.map_append, List.append_assoc]
      exact hnodup
    obtain ⟨macros, hfold, hmacros⟩ :=
      ih (c := { c with macros := c.macros ++ [m], pending := none }) rfl hnext
    refine ⟨m :: macros, ?_, ?_⟩
    · rw [List.foldl_append, hstep, complete_new hnew, hfold, List.append_assoc, hpending]
      rfl
    · rw [List.map_cons, hmacros]
      rfl

/-- If lines make no error, no macro is defined twice. -/
theorem nodup_of_laid (h : Laid Plain Defines ls rest ds) (hpending : c.pending = none)
    (hnodup : (c.macros.map Macro.name).Nodup) (herrors : (ls.foldl step c).errors = []) :
    (c.macros.map Macro.name ++ ds.map Prod.fst).Nodup := by
  induction h generalizing c with
  | nil => rwa [List.map_nil, List.append_nil]
  | @line l _ _ _ hplain _ ih =>
    rw [List.foldl_cons, step_plain hpending hplain] at herrors
    exact ih (c := { c with rest := c.rest ++ [l] }) hpending hnodup herrors
  | @definition front _ _ name texts _ hdefines _ ih =>
    obtain ⟨number, hstep⟩ := foldl_defines hdefines hpending rfl
    rw [List.foldl_append, hstep] at herrors
    have hnew := (errors_complete (errors_foldl herrors)).2
    rw [complete_new hnew] at herrors
    let m : Macro := ⟨name, texts.filter (· ≠ []), number⟩
    have hnext : ((c.macros ++ [m]).map Macro.name).Nodup := by
      rw [List.map_append]
      exact List.nodup_append.mpr ⟨hnodup, List.nodup_singleton _, by
        rintro a ha b hb rfl
        exact hnew (List.mem_singleton.mp hb ▸ ha)⟩
    have hall := ih (c := { c with macros := c.macros ++ [m], pending := none }) rfl hnext herrors
    rw [List.map_append, List.append_assoc] at hall
    exact hall

end

end Collected

/-- What is found in lines, if no macro is defined twice. -/
theorem collect_laid {ls rest : List Line} {ds : List (String × List (List Char))}
    (h : Laid Plain Defines ls rest ds) (hnodup : (ds.map Prod.fst).Nodup) :
    ∃ macros, collect ls = { rest := rest, macros := macros } ∧ macros.map entry = ds := by
  obtain ⟨macros, hfold, hmacros⟩ := Collected.foldl_laid (c := {}) h rfl hnodup
  refine ⟨macros, ?_, hmacros⟩
  rw [collect, hfold, Collected.finish]
  rfl

/-- The pieces of a source text are those of some parts. -/
def Splits (raws : List (List Char)) : Prop :=
  ∃ parts : List Part, parts.flatMap Part.raws = raws

/-- The first pieces go on with the definition of a macro until it ends, and the others are those of
some parts. -/
def Closes (name : String) (raws : List (List Char)) : Prop :=
  ∃ front texts back, raws = front ++ back ∧ (∀ raw ∈ front, '\n' ∉ raw) ∧
    Continues name (significant front) texts ∧ Splits back

section

variable {name : String} {raw text : List Char} {raws : List (List Char)}

theorem Splits.plain (h : Splits raws) (hfeed : '\n' ∉ raw) (hplain : ¬ keyword.toList <+: strip raw) :
    Splits (raw :: raws) := by
  obtain ⟨parts, rfl⟩ := h
  exact ⟨.plain ⟨raw, hfeed, hplain⟩ :: parts, rfl⟩

theorem ne_nil_of_keyword (h : keyword.toList <+: text) : text ≠ [] := by
  rintro rfl
  exact absurd (List.prefix_nil.mp h) (by decide)

theorem significant_cons_of_ne (h : strip raw ≠ []) :
    significant (raw :: raws) = strip raw :: significant raws := by
  rw [significant_cons, if_neg h]

theorem Splits.single (h : Splits raws) (hfeed : '\n' ∉ raw) (hkeyword : keyword.toList <+: strip raw)
    (hheader : header (strip raw) = .ok (name, text, false)) : Splits (raw :: raws) := by
  obtain ⟨parts, rfl⟩ := h
  have hdefines : Defines (significant [raw]) name [text] := by
    rw [significant_cons_of_ne (ne_nil_of_keyword hkeyword)]
    exact .single hkeyword hheader
  exact ⟨.definition ⟨[raw], name, [text], List.forall_mem_singleton.mpr hfeed, hdefines⟩ :: parts, rfl⟩

theorem Closes.splits (h : Closes name raws) (hfeed : '\n' ∉ raw)
    (hkeyword : keyword.toList <+: strip raw)
    (hheader : header (strip raw) = .ok (name, text, true)) : Splits (raw :: raws) := by
  obtain ⟨front, texts, back, rfl, hfront, hcontinues, parts, rfl⟩ := h
  have hdefines : Defines (significant (raw :: front)) name (text :: texts) := by
    rw [significant_cons_of_ne (ne_nil_of_keyword hkeyword)]
    exact .more hkeyword hheader hcontinues
  exact ⟨.definition ⟨raw :: front, name, text :: texts, List.forall_mem_cons.mpr ⟨hfeed, hfront⟩,
    hdefines⟩ :: parts, rfl⟩

theorem Closes.blank (h : Closes name raws) (hfeed : '\n' ∉ raw) (hempty : strip raw = []) :
    Closes name (raw :: raws) := by
  obtain ⟨front, texts, back, rfl, hfront, hcontinues, hback⟩ := h
  refine ⟨raw :: front, texts, back, rfl, List.forall_mem_cons.mpr ⟨hfeed, hfront⟩, ?_, hback⟩
  rw [significant_cons, if_pos hempty]
  exact hcontinues

theorem Splits.last (h : Splits raws) (hfeed : '\n' ∉ raw) (hne : strip raw ≠ [])
    (hcontinued : continued name (strip raw) = .ok (text, false)) : Closes name (raw :: raws) := by
  refine ⟨[raw], [text], raws, rfl, List.forall_mem_singleton.mpr hfeed, ?_, h⟩
  rw [significant_cons_of_ne hne]
  exact .last hcontinued

theorem Closes.more (h : Closes name raws) (hfeed : '\n' ∉ raw) (hne : strip raw ≠ [])
    (hcontinued : continued name (strip raw) = .ok (text, true)) : Closes name (raw :: raws) := by
  obtain ⟨front, texts, back, rfl, hfront, hcontinues, hback⟩ := h
  refine ⟨raw :: front, text :: texts, back, rfl, List.forall_mem_cons.mpr ⟨hfeed, hfront⟩, ?_, hback⟩
  rw [significant_cons_of_ne hne]
  exact .more hcontinued hcontinues

end

namespace Collected

variable {c : Collected} {m : Macro} {ls : List Line}

theorem pending_complete : (c.complete m).pending = none := by
  rw [complete]
  split <;> rfl

/-- A line without an error that starts a definition is its header. -/
theorem header_of_errors {l : Line} (hpending : c.pending = none) (hkeyword : keyword.toList <+: l.text)
    (h : (c.step l).errors = []) : ∃ name text,
      header l.text = .ok (name, text, false) ∧ (c.step l).pending = none ∨
      header l.text = .ok (name, text, true) ∧
        (c.step l).pending = some ⟨name, [text], l.number⟩ := by
  rw [step, hpending] at h ⊢
  simp only [List.isPrefixOf_iff_prefix.mpr hkeyword, if_true] at h ⊢
  cases hheader : header l.text with
  | error cause =>
    rw [hheader] at h
    exact absurd (List.append_eq_nil_iff.mp h).2 (List.cons_ne_nil _ _)
  | ok found =>
    obtain ⟨name, text, more⟩ := found
    refine ⟨name, text, ?_⟩
    cases more with
    | false => exact .inl ⟨rfl, pending_complete⟩
    | true => exact .inr ⟨rfl, rfl⟩

/-- A line without an error goes on with the definition that is open. -/
theorem continued_of_errors {l : Line} (hpending : c.pending = some m) (h : (c.step l).errors = []) :
    ∃ text, continued m.name l.text = .ok (text, false) ∧ (c.step l).pending = none ∨
      continued m.name l.text = .ok (text, true) ∧
        (c.step l).pending = some { m with body := m.body ++ [text] } := by
  rw [step, hpending] at h ⊢
  simp only at h ⊢
  cases hcontinued : continued m.name l.text with
  | error cause =>
    rw [hcontinued] at h
    exact absurd (List.append_eq_nil_iff.mp h).2 (List.cons_ne_nil _ _)
  | ok found =>
    obtain ⟨text, more⟩ := found
    refine ⟨text, ?_⟩
    cases more with
    | false => exact .inl ⟨rfl, pending_complete⟩
    | true => exact .inr ⟨rfl, rfl⟩

theorem splits_or_closes {raws : List (List Char)} (hfeed : ∀ raw ∈ raws, '\n' ∉ raw)
    (hls : ls.map Line.text = significant raws) (h : (ls.foldl step c).finish.errors = []) :
    (c.pending = none → Splits raws) ∧ ∀ m, c.pending = some m → Closes m.name raws := by
  induction raws generalizing c ls with
  | nil =>
    obtain rfl := List.map_eq_nil_iff.mp hls
    refine ⟨fun _ => ⟨[], rfl⟩, fun m hm => ?_⟩
    have hnone : c.pending = none := (finish_of_errors h).2
    rw [hm] at hnone
    cases hnone
  | cons raw raws ih =>
    obtain ⟨hraw, hraws⟩ := List.forall_mem_cons.mp hfeed
    by_cases hempty : strip raw = []
    · rw [significant_cons, if_pos hempty] at hls
      obtain ⟨hsplits, hcloses⟩ := ih hraws hls h
      refine ⟨fun hnone => ?_, fun m hm => (hcloses m hm).blank hraw hempty⟩
      exact (hsplits hnone).plain hraw fun hkeyword => ne_nil_of_keyword hkeyword hempty
    · rw [significant_cons_of_ne hempty] at hls
      obtain ⟨l, ls, rfl, hl, hrest⟩ := List.map_eq_cons_iff.mp hls
      rw [List.foldl_cons] at h
      obtain ⟨hsplits, hcloses⟩ := ih hraws hrest h
      have herrors : (c.step l).errors = [] := by
        rw [(finish_of_errors h).1] at h
        exact errors_foldl h
      rw [← hl] at hempty
      refine ⟨fun hnone => ?_, fun m hm => ?_⟩
      · by_cases hkeyword : keyword.toList <+: strip raw
        · rw [← hl] at hkeyword
          obtain ⟨name, text, ⟨hheader, hnext⟩ | ⟨hheader, hnext⟩⟩ :=
            header_of_errors hnone hkeyword herrors
          · rw [hl] at hkeyword hheader
            exact (hsplits hnext).single hraw hkeyword hheader
          · rw [hl] at hkeyword hheader
            exact (hcloses _ hnext).splits hraw hkeyword hheader
        · have hstep : c.step l = { c with rest := c.rest ++ [l] } :=
            step_plain hnone (hl ▸ hkeyword)
          rw [hstep] at hsplits
          exact (hsplits hnone).plain hraw hkeyword
      · obtain ⟨text, ⟨hcontinued, hnext⟩ | ⟨hcontinued, hnext⟩⟩ := continued_of_errors hm herrors
        · rw [hl] at hcontinued hempty
          exact (hsplits hnext).last hraw hempty hcontinued
        · rw [hl] at hcontinued hempty
          exact (hcloses _ hnext).more hraw hempty hcontinued

end Collected

/-- The lines of a source text that has these parts. -/
theorem text_significantLines_joined (parts : List Part) :
    (significantLines (joined parts)).map Line.text = significant (parts.flatMap Part.raws) := by
  rw [text_significantLines, joined, String.toList_ofList, significant_lines]
  intro raw hraw
  obtain ⟨p, -, hp⟩ := List.mem_flatMap.mp hraw
  exact p.not_mem_raws hp

/-- A source text without a malformed definition has parts. -/
theorem exists_joined {source : String} (h : (collect (significantLines source)).errors = []) :
    ∃ parts, joined parts = source := by
  obtain ⟨raws, -, hfeed, hraws⟩ := exists_intercalate source.toList
  have hls : (significantLines source).map Line.text = significant raws := by
    rw [text_significantLines, ← hraws, significant_lines hfeed]
  obtain ⟨parts, hparts⟩ := (Collected.splits_or_closes hfeed hls h).1 rfl
  refine ⟨parts, ?_⟩
  rw [joined, hparts, hraws, String.ofList_toList]

end RegisterMachine.Assembly.Macro
