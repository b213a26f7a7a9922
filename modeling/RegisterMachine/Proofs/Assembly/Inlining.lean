import Mathlib
import RegisterMachine.Proofs.Assembly.Listing
import RegisterMachine.Proofs.Assembly.Parts

namespace RegisterMachine.Assembly

namespace Macro

section

variable {ms : List Macro} {ds : List Definition}

theorem map_text_body (number : Nat) (body : List (List Char)) :
    (body.map fun text => (⟨number, text⟩ : Line)).map Line.text = body := by
  rw [List.map_map]
  exact List.map_id' body

/-- A line is replaced, without an error, by the lines that it stands for. -/
theorem stands_iff (hentries : ms.map entry = ds.map Definition.entry)
    (hnodup : (ds.map Definition.name).Nodup) {l : Line} {body : List (List Char)} :
    Stands ds l.text body ↔ errorOf? (expandLine ms l) = none ∧
      (linesOf (expandLine ms l)).map Line.text = body := by
  have hnames : ((ms.map entry).map Prod.fst).Nodup := by
    rw [hentries, List.map_map]
    exact hnodup
  cases hinvoked : invoked? l.text with
  | none =>
    have hexpand : expandLine ms l = .ok [l] := by rw [expandLine, hinvoked]
    rw [hexpand]
    constructor
    · intro h
      cases h with
      | self => exact ⟨rfl, rfl⟩
      | body hd hname =>
        rw [hinvoked] at hname
        cases hname
    · rintro ⟨-, rfl⟩
      exact .self hinvoked
  | some name =>
    have hexpand : ∀ m, ms.find? (·.name == name) = some m →
        expandLine ms l = .ok (m.body.map fun text => ⟨l.number, text⟩) := by
      intro m hfind
      rw [expandLine, hinvoked]
      simp only [hfind]
    constructor
    · intro h
      cases h with
      | self hnone =>
        rw [hinvoked] at hnone
        cases hnone
      | body hd hname =>
        obtain rfl := Option.some.inj (hinvoked.symm.trans hname)
        obtain ⟨m, hfind, hbody⟩ :=
          (exists_find?_iff hnames).mpr (hentries ▸ List.mem_map_of_mem hd)
        rw [hexpand m hfind, ← hbody]
        exact ⟨rfl, map_text_body l.number m.body⟩
    · rintro ⟨hok, rfl⟩
      cases hfind : ms.find? (·.name == name) with
      | none =>
        rw [expandLine, hinvoked] at hok
        simp only [hfind, errorOf?] at hok
        cases hok
      | some m =>
        obtain ⟨d, hd, hentry⟩ :=
          List.mem_map.mp (hentries ▸ (exists_find?_iff hnames).mp ⟨m, hfind, rfl⟩)
        obtain ⟨rfl, hbody⟩ := Prod.mk.inj hentry
        have htexts : (linesOf (expandLine ms l)).map Line.text = d.body := by
          rw [hexpand m hfind, hbody]
          exact map_text_body l.number m.body
        rw [htexts]
        exact .body hd hinvoked

theorem forall₂_stands_iff (hentries : ms.map entry = ds.map Definition.entry)
    (hnodup : (ds.map Definition.name).Nodup) {ls : List Line} {texts : List (List Char)} :
    (∃ bodies, List.Forall₂ (Stands ds) (ls.map Line.text) bodies ∧ bodies.flatten = texts) ↔
      (ls.map (expandLine ms)).filterMap errorOf? = [] ∧
        ((ls.map (expandLine ms)).flatMap linesOf).map Line.text = texts := by
  have hbodies : ∀ bodies, List.Forall₂ (Stands ds) (ls.map Line.text) bodies ↔
      (∀ l ∈ ls, errorOf? (expandLine ms l) = none) ∧
        ls.map (fun l => (linesOf (expandLine ms l)).map Line.text) = bodies := by
    intro bodies
    simp only [List.forall₂_map_left_iff, stands_iff hentries hnodup, List.forall₂_and_left]
    rw [← List.forall₂_map_left_iff, List.forall₂_eq_eq_eq]
  simp only [hbodies, and_assoc, exists_and_left, exists_eq_left']
  rw [List.filterMap_map, List.filterMap_eq_nil_iff, List.flatMap_map, List.map_flatMap,
    ← List.flatMap_def]
  rfl

end

/-- The lines of a source text are replaced, without an error, exactly by what its parts stand for. -/
theorem inlines_iff {parts : List Part} {texts : List (List Char)} : Inlines parts texts ↔
    (expand (joined parts)).errors = [] ∧
      (expand (joined parts)).lines.map Line.text = texts := by
  have hls := text_significantLines_joined parts
  rw [expand]
  generalize significantLines (joined parts) = ls at hls
  obtain ⟨rest, hlaid, hrest⟩ := exists_laid hls
  have hnames : ((definitions parts).map Definition.entry).map Prod.fst =
      (definitions parts).map Definition.name := List.map_map
  by_cases herrors : (collect ls).errors = []
  · have hnodup : ((definitions parts).map Definition.name).Nodup := by
      have hlast := Collected.finish_of_errors herrors
      rw [collect, hlast.1] at herrors
      exact hnames ▸ Collected.nodup_of_laid (c := {}) hlaid rfl List.nodup_nil herrors
    obtain ⟨macros, hfound, hmacros⟩ := collect_laid hlaid (hnames ▸ hnodup)
    rw [Inlines, and_iff_right hnodup, ← hrest, forall₂_stands_iff hmacros hnodup, expandLines]
    simp only [hfound, if_true]
  · constructor
    · intro h
      obtain ⟨macros, hfound, -⟩ := collect_laid hlaid (hnames ▸ h.1)
      rw [hfound] at herrors
      exact absurd rfl herrors
    · rintro ⟨hnone, -⟩
      rw [expandLines] at hnone
      simp only [if_neg herrors] at hnone
      exact absurd hnone herrors

theorem errors_collect {source : String} (h : (expand source).errors = []) :
    (collect (significantLines source)).errors = [] := by
  by_contra herrors
  rw [expand, expandLines] at h
  simp only [if_neg herrors] at h
  exact herrors h

/-- A line that is stripped and ends nowhere else. -/
def Tidy (text : List Char) : Prop :=
  strip text = text ∧ '\n' ∉ text

theorem tidy_strip {s : List Char} (h : '\n' ∉ s) : Tidy (strip s) :=
  ⟨strip_strip s, fun hmem => h ((strip_sublist s).subset hmem)⟩

theorem mem_of_mem_tokensFrom {current s : List Char} {quoted : Bool} {tokens : List String}
    (h : tokensFrom current quoted s = some tokens) {token : String} (htoken : token ∈ tokens)
    {c : Char} (hc : c ∈ token.toList) : c ∈ current ++ s := by
  have hcons : ∀ {front : List Char} {rest : List String}, token ∈ consToken front rest →
      c ∈ front ∨ token ∈ rest := by
    intro front rest hmem
    rw [consToken] at hmem
    split at hmem
    next => exact .inr hmem
    next =>
      rcases List.mem_cons.mp hmem with rfl | hrest
      · rw [String.toList_ofList] at hc
        exact .inl hc
      · exact .inr hrest
  induction s generalizing current quoted tokens with
  | nil =>
    rw [tokensFrom] at h
    split at h
    next => cases h
    next =>
      obtain rfl := Option.some.inj h
      rcases hcons htoken with hfront | hnil
      · rw [List.append_nil]
        exact hfront
      · cases hnil
  | cons d s ih =>
    rw [tokensFrom] at h
    split at h
    next =>
      have hmem := ih h htoken
      rw [List.append_assoc] at hmem
      exact hmem
    next =>
      split at h
      next =>
        obtain ⟨rest, hrest, rfl⟩ := Option.map_eq_some_iff.mp h
        rcases hcons htoken with hfront | hmem
        · exact List.mem_append_left _ hfront
        · exact List.mem_append_right _ (List.mem_cons_of_mem _ (ih hrest hmem))
      next =>
        have hmem := ih h htoken
        rw [List.append_assoc] at hmem
        exact hmem

theorem tidy_bodyLine {name : String} {line : List Char} {tokens rest : List String}
    {text : List Char} {more : Bool} (hfeed : '\n' ∉ line) (htokens : tokens? line = some tokens)
    (hrest : rest ⊆ tokens) (h : bodyLine name rest = .ok (text, more)) : Tidy text := by
  obtain ⟨literal, hmem, inner, hinner, rfl⟩ := exists_literal h
  refine tidy_strip fun hc => hfeed ?_
  exact mem_of_mem_tokensFrom htokens (hrest hmem) ((unquote?_sublist hinner).subset hc)

theorem tidy_continued {name : String} {line text : List Char} {more : Bool} (hfeed : '\n' ∉ line)
    (h : continued name line = .ok (text, more)) : Tidy text := by
  obtain ⟨tokens, htokens, hbody⟩ := continued_eq_ok_iff.mp h
  exact tidy_bodyLine hfeed htokens (List.Subset.refl _) hbody

theorem tidy_header {name : String} {line text : List Char} {more : Bool} (hfeed : '\n' ∉ line)
    (h : header line = .ok (name, text, more)) : Tidy text := by
  obtain ⟨tokens, htokens, -, hbody⟩ := header_eq_ok_iff.mp h
  have hrest : tokens ⊆ keyword :: name :: tokens := fun token hmem =>
    List.mem_cons_of_mem _ (List.mem_cons_of_mem _ hmem)
  exact tidy_bodyLine hfeed htokens hrest hbody

theorem Continues.tidy {name : String} {lines texts : List (List Char)}
    (h : Continues name lines texts) (hfeed : ∀ line ∈ lines, '\n' ∉ line) :
    ∀ text ∈ texts, Tidy text := by
  induction h with
  | last hcontinued =>
    have hline := List.forall_mem_singleton.mp hfeed
    exact List.forall_mem_singleton.mpr (tidy_continued hline hcontinued)
  | more hcontinued _ ih =>
    obtain ⟨hline, hlines⟩ := List.forall_mem_cons.mp hfeed
    exact List.forall_mem_cons.mpr ⟨tidy_continued hline hcontinued, ih hlines⟩

theorem Defines.tidy {name : String} {lines texts : List (List Char)}
    (h : Defines lines name texts) (hfeed : ∀ line ∈ lines, '\n' ∉ line) :
    ∀ text ∈ texts, Tidy text := by
  cases h with
  | single _ hheader =>
    have hline := List.forall_mem_singleton.mp hfeed
    exact List.forall_mem_singleton.mpr (tidy_header hline hheader)
  | more _ hheader hcontinues =>
    obtain ⟨hline, hlines⟩ := List.forall_mem_cons.mp hfeed
    exact List.forall_mem_cons.mpr ⟨tidy_header hline hheader, hcontinues.tidy hlines⟩

theorem tidy_significant {raws : List (List Char)} (hfeed : ∀ raw ∈ raws, '\n' ∉ raw) :
    ∀ text ∈ significant raws, Tidy text ∧ text ≠ [] := by
  intro text htext
  obtain ⟨hmem, hne⟩ := List.mem_filter.mp htext
  obtain ⟨raw, hraw, rfl⟩ := List.mem_map.mp hmem
  exact ⟨tidy_strip (hfeed raw hraw), of_decide_eq_true hne⟩

theorem Definition.tidy (d : Definition) : ∀ text ∈ d.body, Tidy text ∧ text ≠ [] := by
  intro text htext
  obtain ⟨hmem, hne⟩ := List.mem_filter.mp htext
  have hfeed : ∀ line ∈ significant d.raws, '\n' ∉ line := fun line hline =>
    (tidy_significant d.not_mem line hline).1.2
  exact ⟨d.defines.tidy hfeed text hmem, of_decide_eq_true hne⟩

theorem tidy_stands {ds : List Definition} {lines : List (List Char)}
    {bodies : List (List (List Char))} (h : List.Forall₂ (Stands ds) lines bodies)
    (hlines : ∀ line ∈ lines, Tidy line ∧ line ≠ []) :
    ∀ text ∈ bodies.flatten, Tidy text ∧ text ≠ [] := by
  induction h with
  | nil => exact hlines
  | cons hstands _ ih =>
    obtain ⟨hline, hrest⟩ := List.forall_mem_cons.mp hlines
    rw [List.flatten_cons, List.forall_mem_append]
    refine ⟨?_, ih hrest⟩
    cases hstands with
    | self => exact List.forall_mem_singleton.mpr hline
    | body => exact Definition.tidy _

/-- The lines behind the macros are stripped, and none is empty. -/
theorem Inlines.tidy {parts : List Part} {texts : List (List Char)} (h : Inlines parts texts) :
    ∀ text ∈ texts, Tidy text ∧ text ≠ [] := by
  obtain ⟨-, bodies, hbodies, rfl⟩ := h
  refine tidy_stands hbodies (tidy_significant ?_)
  intro raw hraw
  obtain ⟨l, -, rfl⟩ := List.mem_map.mp hraw
  exact l.not_mem

/-- Lines without a macro in them are the parts of the source text that they make. -/
theorem exists_unmarked {texts : List (List Char)} (htidy : ∀ text ∈ texts, Tidy text ∧ text ≠ [])
    (hmark : ∀ text ∈ texts, text.head? ≠ some '#') : ∃ parts : List Part,
      parts.flatMap Part.raws = texts ∧ definitions parts = [] ∧ plainTexts parts = texts := by
  induction texts with
  | nil => exact ⟨[], rfl, rfl, rfl⟩
  | cons text texts ih =>
    obtain ⟨⟨⟨hstrip, hfeed⟩, hne⟩, htexts⟩ := List.forall_mem_cons.mp htidy
    obtain ⟨hhead, hheads⟩ := List.forall_mem_cons.mp hmark
    obtain ⟨parts, hraws, hdefinitions, hplain⟩ := ih htexts hheads
    have hkeyword : ¬ keyword.toList <+: strip text := by
      rw [hstrip]
      rintro ⟨rest, rfl⟩
      exact hhead rfl
    refine ⟨.plain ⟨text, hfeed, hkeyword⟩ :: parts, ?_, hdefinitions, ?_⟩
    · rw [List.flatMap_cons, hraws]
      rfl
    · have hcons : plainTexts (.plain ⟨text, hfeed, hkeyword⟩ :: parts) =
          significant (text :: (parts.filterMap Part.plain?).map PlainLine.raw) := rfl
      have hrest : significant ((parts.filterMap Part.plain?).map PlainLine.raw) = texts := hplain
      rw [hcons, significant_cons, hstrip, if_neg hne, hrest]

theorem inlines_unmarked {parts : List Part} (hdefinitions : definitions parts = [])
    (hmark : ∀ text ∈ plainTexts parts, text.head? ≠ some '#') : Inlines parts (plainTexts parts) := by
  rw [Inlines, hdefinitions]
  refine ⟨List.nodup_nil, (plainTexts parts).map fun text => [text], ?_, ?_⟩
  · rw [List.forall₂_map_right_iff, List.forall₂_same]
    exact fun text htext => .self (invoked?_eq_none (hmark text htext))
  · exact List.flatMap_singleton' _

end Macro

section

variable {ls ls' : List Line} {p : Source} {index : Nat} {rows : List (List String)}

theorem Rows.congr (h : Rows ls rows) (htexts : ls'.map Line.text = ls.map Line.text) :
    Rows ls' rows := by
  obtain ⟨heven, hrows⟩ := h
  have hcomp : ∀ ls : List Line, ls.filterMap (fun l => tokens? l.text) =
      (ls.map Line.text).filterMap tokens? := fun ls => List.filterMap_map.symm
  constructor
  · intro l hl
    have hmem : l.text ∈ ls.map Line.text := htexts ▸ List.mem_map_of_mem hl
    obtain ⟨l', hl', htext⟩ := List.mem_map.mp hmem
    rw [← htext]
    exact heven l' hl'
  · rw [hcomp, htexts, ← hcomp]
    exact hrows

theorem Declares.congr {o o' : Outline} {ds : List Declaration} {level : Option DebugLevel}
    {cs : List NamedConstant} (h : Declares o ds level cs) (hlabels : o'.labels = o.labels) :
    Declares o' ds level cs := by
  induction h with
  | nil => exact .nil
  | debug _ hdenotes ih => exact .debug ih hdenotes
  | constant _ hname hgives hnew hlabel ih =>
    refine .constant ih hname hgives hnew ?_
    rw [Outline.label?, hlabels]
    exact hlabel

/-- Lines with the same rows become the same image. -/
theorem assembleLines_image?_congr {warnings warnings' : List String} {i : Image}
    (h : (assembleLines ls warnings).image? = some i)
    (htexts : ls'.map Line.text = ls.map Line.text) :
    (assembleLines ls' warnings').image? = some i := by
  obtain ⟨p, index, hanalysis, hbuilds, hi⟩ := assembleLines_image?_cases h
  have hp := hanalysis.wellFormed_iff.mpr ⟨_, hbuilds⟩
  obtain ⟨index', hanalysis'⟩ := analysis_of_wellFormed (hanalysis.rows.congr htexts) hp
  rw [hanalysis'.image?_of_builds hbuilds, ← hi]
  obtain ⟨level, cs, hdeclares, hof⟩ := hanalysis.declares
  have hlabels : (Outline.ofLines ls').labels = (Outline.ofLines ls).labels :=
    hanalysis'.labels.trans hanalysis.labels.symm
  have hhandlers : (Outline.ofLines ls').handlers = (Outline.ofLines ls).handlers :=
    hanalysis'.handlers.trans hanalysis.handlers.symm
  have hindex : index' = index := by
    have hentry := hanalysis'.entry
    rw [Outline.label?, hlabels] at hentry
    exact Option.some.inj (hentry.symm.trans hanalysis.entry)
  have hof' : (scope ls').declarations =
      { entry := some index', debug := level, constants := cs } :=
    Declarations.ofOutline_of_declares hanalysis'.shows.directives hanalysis'.entry
      (hdeclares.congr hlabels)
  have hscope : (scope ls').declarations = (scope ls).declarations := by rw [hof', hof, hindex]
  rw [hindex, hscope, image, image]
  simp only [scope, hlabels, hhandlers]

/-- No row of a well-formed program starts like the use of a macro. -/
theorem Source.head?_of_mem_rows {head : String} {arguments : List String} (hp : p.WellFormed)
    (h : head :: arguments ∈ p.rows) : head.toList.head? ≠ some '#' := by
  have hpoint : head.toList.head? = some '.' → head.toList.head? ≠ some '#' := by
    intro hhead hmark
    cases hhead.symm.trans hmark
  rw [rows, List.cons_append, List.mem_cons, List.mem_append, List.mem_cons, List.mem_map,
    List.mem_map] at h
  rcases h with h | ⟨d, -, hd⟩ | h | ⟨s, hs, hrow⟩
  · rw [(List.cons.inj h).1]
    decide
  · obtain ⟨head', arguments', hrow, hhead, -⟩ := isDirective_declaration d
    rw [(List.cons.inj (hd.symm.trans hrow)).1] at hpoint ⊢
    exact hpoint hhead
  · rw [(List.cons.inj h).1]
    decide
  · cases s with
    | label name =>
      have hname : isIdentifier name.toList := by
        obtain ⟨before, after, hcode⟩ := List.append_of_mem hs
        have hlabel : (⟨name, (Statement.instructions before).length⟩ : Label) ∈ p.labels :=
          Statement.mem_labels_iff.mpr ⟨before, after, hcode, Nat.zero_add _⟩
        exact hp.label_name name (List.mem_map_of_mem (f := Label.name) hlabel)
      rw [← (List.cons.inj hrow).1, String.toList_append]
      simp only [isIdentifier, Bool.and_eq_true, decide_eq_true_eq, List.all_eq_true] at hname
      rw [List.head?_append_of_ne_nil _ hname.1]
      intro hmark
      exact absurd (hname.2 '#' (List.mem_of_head? hmark)) (by decide)
    | instruction op operands =>
      rw [← (List.cons.inj hrow).1]
      exact (isWord_mnemonic op).2

/-- The lines of a well-formed program use no macro. -/
theorem Rows.head?_ne (h : Rows ls p.rows) (hp : p.WellFormed) :
    ∀ l ∈ ls, l.text.head? ≠ some '#' := by
  intro l hl hmark
  obtain ⟨heven, hrows⟩ := h
  obtain ⟨row, hrow⟩ := Option.isSome_iff_exists.mp ((isSome_tokens? l.text).mpr (heven l hl))
  obtain ⟨rest, htext⟩ := List.head?_eq_some_iff.mp hmark
  have htokens : tokensFrom ['#'] false rest = some row := by
    rw [htext] at hrow
    exact hrow
  obtain ⟨token, arguments, rfl, htoken⟩ := head?_tokensFrom htokens rfl
  have hmem : token :: arguments ∈ p.rows := by
    rw [← hrows, List.mem_filter]
    exact ⟨List.mem_filterMap.mpr ⟨l, hl, hrow⟩, rfl⟩
  exact Source.head?_of_mem_rows hp hmem htoken

end

/-- The lines of a source text behind its macros, as a source text of their own. -/
def inlined (source : String) : String :=
  "\n".intercalate ((Macro.expand source).lines.map fun l => String.ofList l.text)

/-- The lines behind the macros of a source text that is assembled make a source text without macros,
which has the same lines and becomes the same image. In the source text itself, each line outside
definitions stands for one of these lines or for those of the macro that it uses. Wherever the
definitions stand between the other lines, the image is the same. -/
theorem assemble_inlined {source : String} (h : (assemble source).errors = []) :
    ∃ i, (assemble source).outcome = .ok i ∧ (assemble (inlined source)).outcome = .ok i ∧
      (assemble (inlined source)).binary? = (assemble source).binary? ∧
      (∀ l ∈ significantLines (inlined source), l.text.head? ≠ some '#') ∧
      (Macro.expand (inlined source)).lines.map Line.text =
        (Macro.expand source).lines.map Line.text ∧
      (∃ parts, Macro.joined parts = source) ∧
      ∀ parts, Macro.joined parts = source →
        Macro.Inlines parts ((Macro.expand source).lines.map Line.text) ∧
        ∀ parts', Macro.Moved parts parts' → (assemble (Macro.joined parts')).outcome = .ok i := by
  obtain ⟨i, himage⟩ := exists_assemble_of_errors h
  obtain ⟨herrors, hlines⟩ := assemble_image?_eq_some_iff.mp himage
  obtain ⟨p, index, hanalysis, hbuilds, -⟩ := assembleLines_image?_cases hlines
  have hhead := hanalysis.rows.head?_ne (hanalysis.wellFormed_iff.mpr ⟨_, hbuilds⟩)
  generalize hls : (Macro.expand source).lines = ls at hlines hhead
  have hmark : ∀ text ∈ ls.map Line.text, text.head? ≠ some '#' := List.forall_mem_map.mpr hhead
  have hinlines : ∀ parts, Macro.joined parts = source → Macro.Inlines parts (ls.map Line.text) := by
    rintro parts rfl
    exact Macro.inlines_iff.mpr ⟨herrors, congrArg _ hls⟩
  have houtcome : ∀ parts, Macro.Inlines parts (ls.map Line.text) →
      (assemble (Macro.joined parts)).outcome = .ok i := by
    intro parts hparts
    obtain ⟨hnone, htexts⟩ := Macro.inlines_iff.mp hparts
    exact Assembled.image?_eq_some_iff.mp
      (assemble_image?_eq_some_iff.mpr ⟨hnone, assembleLines_image?_congr hlines htexts⟩)
  obtain ⟨parts, hparts⟩ := Macro.exists_joined (Macro.errors_collect herrors)
  have htidy := (hinlines parts hparts).tidy
  obtain ⟨flat, hraws, hdefinitions, hplain⟩ := Macro.exists_unmarked htidy hmark
  have hjoined : Macro.joined flat = inlined source := by
    rw [Macro.joined, hraws, inlined, hls, ← String.toList_inj, String.toList_ofList,
      String.toList_intercalate, List.map_map]
    refine congrArg _ (List.map_congr_left fun l _ => ?_)
    exact String.toList_ofList.symm
  have hflat : Macro.Inlines flat (ls.map Line.text) := by
    have hunmarked := Macro.inlines_unmarked hdefinitions (hplain.symm ▸ hmark)
    rw [hplain] at hunmarked
    exact hunmarked
  have hassembled := houtcome flat hflat
  rw [hjoined] at hassembled
  refine ⟨i, Assembled.image?_eq_some_iff.mp himage, hassembled, ?_, ?_, ?_, ⟨parts, hparts⟩, ?_⟩
  · rw [Assembled.binary?, Assembled.binary?, himage, Assembled.image?_eq_some_iff.mpr hassembled]
  · intro l hl
    have hmem : l.text ∈ significant (flat.flatMap Macro.Part.raws) := by
      rw [← Macro.text_significantLines_joined, hjoined]
      exact List.mem_map_of_mem hl
    rw [hraws, significant_eq_self fun text htext =>
      ⟨(htidy text htext).1.1, (htidy text htext).2⟩] at hmem
    exact hmark l.text hmem
  · rw [← hjoined]
    exact (Macro.inlines_iff.mp hflat).2
  · intro parts hparts
    exact ⟨hinlines parts hparts, fun parts' hmoved =>
      houtcome parts' ((hinlines parts hparts).moved hmoved)⟩

/-- A macro of two lines, one of them a label, defined in front of its use and behind it. -/
theorem assemble_inlined_label :
    let source := "#macro TWO \"main:\" \\\n; the end\n  \"exit ; now\"\n.init main\n.code\n#TWO"
    let moved := ".init main\n.code\n#TWO\n#macro TWO \"main:\" \\\n; the end\n  \"exit ; now\""
    (assemble source).errors = [] ∧ inlined source = ".init main\n.code\nmain:\nexit" ∧
      ∃ i, (assemble source).outcome = .ok i ∧ (assemble (inlined source)).outcome = .ok i ∧
        (assemble moved).outcome = .ok i := by
  intro source moved
  have herrors : (assemble source).errors = [] := by decide +kernel
  obtain ⟨i, hi, hinlined, -, -, -, -, hmoved⟩ := assemble_inlined herrors
  let two : Macro.Definition :=
    { raws := ["#macro TWO \"main:\" \\".toList, "; the end".toList, "  \"exit ; now\"".toList]
      name := "TWO"
      texts := ["main:".toList, "exit".toList]
      not_mem := by decide +kernel
      defines := .more (by decide +kernel) (by decide +kernel) (.last (by decide +kernel)) }
  let start : List Macro.Part := [.plain ⟨".init main".toList, by decide +kernel, by decide +kernel⟩,
    .plain ⟨".code".toList, by decide +kernel, by decide +kernel⟩,
    .plain ⟨"#TWO".toList, by decide +kernel, by decide +kernel⟩]
  have hsource : Macro.joined (.definition two :: start) = source := by decide +kernel
  have htarget : Macro.joined (start ++ [.definition two]) = moved := by decide +kernel
  have hparts : Macro.Moved (.definition two :: start) (start ++ [.definition two]) :=
    ⟨rfl, List.Perm.refl _⟩
  refine ⟨herrors, by decide +kernel, i, hi, hinlined, ?_⟩
  rw [← htarget]
  exact (hmoved _ hsource).2 _ hparts

end RegisterMachine.Assembly
