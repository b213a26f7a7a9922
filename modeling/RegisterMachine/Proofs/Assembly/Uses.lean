import Mathlib
import RegisterMachine.Proofs.Assembly.Parts
import RegisterMachine.Proofs.Assembly.Phases

namespace RegisterMachine.Assembly

/-- The characters of a text from the first that is no separator to the next separator. -/
def firstWord (text : List Char) : List Char :=
  (text.dropWhile isSeparator).takeWhile fun c => !isSeparator c

section

variable {current s : List Char} {quoted : Bool} {token : String} {tokens : List String}

theorem quote_mem_token (h : tokensFrom (current ++ ['"']) quoted s = some (token :: tokens)) :
    '"' ∈ token.toList := by
  have hne : current ++ ['"'] ≠ [] := List.append_ne_nil_of_right_ne_nil _ (List.cons_ne_nil _ _)
  obtain ⟨token', rest, htokens, hprefix⟩ := prefix_tokensFrom h hne
  obtain ⟨rfl, rfl⟩ := List.cons.inj htokens
  exact hprefix.subset (List.mem_append_right _ List.mem_cons_self)

theorem tokensFrom_eq_takeWhile (h : tokensFrom current false s = some (token :: tokens))
    (hne : current ≠ []) (hquote : '"' ∉ token.toList) :
    token.toList = current ++ s.takeWhile fun c => !isSeparator c := by
  induction s generalizing current with
  | nil =>
    rw [tokensFrom, consToken_of_ne_nil hne, if_neg Bool.false_ne_true] at h
    obtain ⟨rfl, rfl⟩ := List.cons.inj (Option.some.inj h)
    rw [String.toList_ofList, List.takeWhile_nil, List.append_nil]
  | cons c s ih =>
    have hnext : current ++ [c] ≠ [] := List.append_ne_nil_of_right_ne_nil _ (List.cons_ne_nil _ _)
    rw [tokensFrom] at h
    by_cases hc : c = '"'
    · subst hc
      exact absurd (quote_mem_token h) hquote
    rw [if_neg hc] at h
    cases hseparator : isSeparator c with
    | true =>
      rw [if_pos ⟨hseparator, rfl⟩] at h
      obtain ⟨rest, -, htokens⟩ := Option.map_eq_some_iff.mp h
      rw [consToken_of_ne_nil hne] at htokens
      obtain ⟨rfl, rfl⟩ := List.cons.inj htokens
      simp [hseparator]
    | false =>
      rw [if_neg (by simp [hseparator])] at h
      simp [ih h hnext, hseparator]

/-- A first token without a quote is the first word. -/
theorem firstWord_eq (h : tokens? s = some (token :: tokens)) (hquote : '"' ∉ token.toList) :
    firstWord s = token.toList := by
  rw [tokens?] at h
  rw [firstWord]
  induction s with
  | nil => cases h
  | cons c s ih =>
    rw [tokensFrom] at h
    by_cases hc : c = '"'
    · subst hc
      exact absurd (quote_mem_token h) hquote
    rw [if_neg hc] at h
    cases hseparator : isSeparator c with
    | true =>
      rw [if_pos ⟨hseparator, rfl⟩] at h
      obtain ⟨rest, hrest, htokens⟩ := Option.map_eq_some_iff.mp h
      rw [consToken, if_pos rfl] at htokens
      rw [List.dropWhile_cons, if_pos hseparator, ih (htokens ▸ hrest)]
    | false =>
      rw [if_neg (by simp [hseparator])] at h
      rw [tokensFrom_eq_takeWhile h (List.cons_ne_nil _ _) hquote]
      simp [hseparator]

end

namespace Macro

/-- The first token of the text is the word that starts a definition. -/
def Starts (text : List Char) : Prop :=
  firstWord text = keyword.toList

instance (text : List Char) : Decidable (Starts text) :=
  inferInstanceAs (Decidable (firstWord text = keyword.toList))

/-- These tokens and lines hold the texts of a definition, one string each; a backslash stands behind
every string but the last. -/
inductive Block : List String → List (List Char) → List (List Char) → Prop
  | last {literal : String} {inner : List Char} : unquote? literal = some inner →
      Block [literal] [] [strip inner]
  | more {literal : String} {inner line : List Char} {tokens : List String}
      {lines texts : List (List Char)} : unquote? literal = some inner → tokens? line = some tokens →
      Block tokens lines texts → Block [literal, continuation] (line :: lines) (strip inner :: texts)

/-- These lines are written as the definition of a macro with this name, and hold these texts. -/
inductive Written : List (List Char) → String → List (List Char) → Prop
  | mk {line : List Char} {name : String} {tokens : List String} {lines texts : List (List Char)} :
      tokens? line = some (keyword :: name :: tokens) → isIdentifier name.toList = true →
      Block tokens lines texts → Written (line :: lines) name texts

section

variable {literal name : String} {inner line text : List Char} {tokens : List String}
  {lines texts : List (List Char)} {more : Bool}

theorem bodyLine_last (h : unquote? literal = some inner) :
    bodyLine name [literal] = .ok (strip inner, false) :=
  bodyLine_eq_ok_iff.mpr ⟨literal, inner, h, rfl, .inl ⟨rfl, rfl⟩⟩

theorem bodyLine_more (h : unquote? literal = some inner) :
    bodyLine name [literal, continuation] = .ok (strip inner, true) :=
  bodyLine_eq_ok_iff.mpr ⟨literal, inner, h, rfl, .inr ⟨rfl, rfl⟩⟩

theorem Block.continues (h : Block tokens lines texts) (hline : tokens? line = some tokens) :
    Continues name (line :: lines) texts := by
  induction h generalizing line with
  | last hliteral => exact .last (continued_eq_ok_iff.mpr ⟨_, hline, bodyLine_last hliteral⟩)
  | more hliteral hnext _ ih =>
    exact .more (continued_eq_ok_iff.mpr ⟨_, hline, bodyLine_more hliteral⟩) (ih hnext)

theorem starts_of_tokens? (h : tokens? line = some (keyword :: tokens)) : Starts line :=
  firstWord_eq h (by decide)

/-- What is written as a definition is taken for one, if it starts with the letters of the keyword. -/
theorem Written.defines (h : Written lines name texts)
    (hstarts : ∀ line ∈ lines, Starts line → keyword.toList <+: line) : Defines lines name texts := by
  obtain ⟨hline, hname, hblock⟩ := h
  have hkeyword := hstarts _ List.mem_cons_self (starts_of_tokens? hline)
  cases hblock with
  | last hliteral =>
    have hheader := header_eq_ok_iff.mpr ⟨_, hline, hname, bodyLine_last hliteral⟩
    exact .single hkeyword hheader
  | more hliteral hnext hrest =>
    have hheader := header_eq_ok_iff.mpr ⟨_, hline, hname, bodyLine_more hliteral⟩
    exact .more hkeyword hheader (hrest.continues hnext)

theorem Written.isIdentifier (h : Written lines name texts) : isIdentifier name.toList = true := by
  obtain ⟨-, hname, -⟩ := h
  exact hname

theorem starts_of_header (h : header line = .ok (name, text, more)) : Starts line := by
  obtain ⟨tokens, htokens, -⟩ := header_eq_ok_iff.mp h
  exact starts_of_tokens? htokens

end

section

variable {ls rest : List Line} {ds : List (String × List (List Char))}

/-- Lines that are laid out by their tokens are laid out for the scan as well, if the two agree on
which lines start a definition. -/
theorem Laid.defines (h : Laid (fun text => ¬ Starts text) Written ls rest ds)
    (hstarts : ∀ l ∈ ls, Starts l.text → keyword.toList <+: l.text)
    (hplain : ∀ l ∈ rest, Plain l.text) : Laid Plain Defines ls rest ds := by
  induction h with
  | nil => exact .nil
  | line _ _ ih =>
    obtain ⟨-, hstarts⟩ := List.forall_mem_cons.mp hstarts
    obtain ⟨hl, hplain⟩ := List.forall_mem_cons.mp hplain
    exact .line hl (ih hstarts hplain)
  | definition hwritten _ ih =>
    obtain ⟨hfront, hstarts⟩ := List.forall_mem_append.mp hstarts
    exact .definition (hwritten.defines (List.forall_mem_map.mpr hfront)) (ih hstarts hplain)

theorem Laid.isIdentifier {IsPlain : List Char → Prop} (h : Laid IsPlain Written ls rest ds) :
    ∀ d ∈ ds, isIdentifier d.1.toList = true := by
  induction h with
  | nil => exact fun d hd => absurd hd List.not_mem_nil
  | line _ _ ih => exact ih
  | definition hwritten _ ih => exact List.forall_mem_cons.mpr ⟨hwritten.isIdentifier, ih⟩

/-- If lines make no error, no line outside definitions starts with the letters of the keyword. -/
theorem Laid.plain_of_errors {c : Collected} (h : Laid (fun text => ¬ Starts text) Written ls rest ds)
    (hstarts : ∀ l ∈ ls, Starts l.text → keyword.toList <+: l.text) (hpending : c.pending = none)
    (herrors : (ls.foldl Collected.step c).errors = []) : ∀ l ∈ rest, Plain l.text := by
  induction h generalizing c with
  | nil => exact fun l hl => absurd hl List.not_mem_nil
  | @line l ls rest _ hl _ ih =>
    obtain ⟨-, hstarts⟩ := List.forall_mem_cons.mp hstarts
    rw [List.foldl_cons] at herrors
    -- the scan would read the line as a header, and that fails without the keyword as a token
    have hplain : Plain l.text := by
      intro hkeyword
      obtain ⟨name, text, ⟨hheader, -⟩ | ⟨hheader, -⟩⟩ :=
        Collected.header_of_errors hpending hkeyword (Collected.errors_foldl herrors)
      · exact hl (starts_of_header hheader)
      · exact hl (starts_of_header hheader)
    rw [Collected.step_plain hpending hplain] at herrors
    exact List.forall_mem_cons.mpr
      ⟨hplain, ih (c := { c with rest := c.rest ++ [l] }) hstarts hpending herrors⟩
  | definition hwritten _ ih =>
    obtain ⟨hfront, hstarts⟩ := List.forall_mem_append.mp hstarts
    have hdefines := hwritten.defines (List.forall_mem_map.mpr hfront)
    obtain ⟨number, hfold⟩ := Collected.foldl_defines hdefines hpending rfl
    rw [List.foldl_append, hfold] at herrors
    exact ih hstarts Collected.pending_complete herrors

end

theorem invoked?_eq_some_iff {text : List Char} {name : String} :
    invoked? text = some name ↔ isIdentifier name.toList = true ∧ text = '#' :: name.toList := by
  unfold invoked?
  split
  next rest =>
    by_cases hrest : isIdentifier rest = true
    · rw [if_pos hrest, Option.some.injEq, ← String.toList_inj, String.toList_ofList, List.cons.injEq]
      constructor
      · rintro rfl
        exact ⟨hrest, rfl, rfl⟩
      · exact fun h => h.2.2
    · rw [if_neg hrest]
      constructor
      · intro h
        cases h
      · rintro ⟨hname, h⟩
        rw [(List.cons.inj h).2] at hrest
        exact absurd hname hrest
  next hother =>
    constructor
    · intro h
      cases h
    · rintro ⟨-, rfl⟩
      exact absurd rfl (hother _)

/-- What becomes of a line outside definitions, given what the names of macros are bound to: the lines
that it is replaced by, and the error if there is one. -/
structure Becomes (ds : List (String × List (List Char))) (l : Line)
    (result : List Line × Option Error) : Prop where
  body : ∀ d ∈ ds, l.text = '#' :: d.1.toList →
    result = (d.2.map fun text => ⟨l.number, text⟩, none)
  unknown : ∀ name : String, isIdentifier name.toList = true → name ∉ ds.map Prod.fst →
    l.text = '#' :: name.toList → result = ([], some ((Cause.macroUnknown name).onLine l.number))
  self : (∀ name : String, isIdentifier name.toList = true → l.text ≠ '#' :: name.toList) →
    result = ([l], none)

/-- Every line outside definitions has been replaced as it should be, and no line that holds only the
name of a macro has an error. -/
structure Replaced (x : Expansion) (rest : List Line) (ds : List (String × List (List Char))) :
    Prop where
  becomes : ∃ found, List.Forall₂ (Becomes ds) rest found ∧
    x.lines = found.flatMap Prod.fst ∧ x.errors = found.filterMap Prod.snd
  no_error : ∀ l ∈ rest, ∀ d ∈ ds, l.text = '#' :: d.1.toList → ∀ e ∈ x.errors, e.line ≠ l.number

section

variable {ms : List Macro} {l : Line}

theorem becomes_expandLine (hnodup : ((ms.map entry).map Prod.fst).Nodup)
    (hnames : ∀ d ∈ ms.map entry, isIdentifier d.1.toList = true) (l : Line) :
    Becomes (ms.map entry) l (linesOf (expandLine ms l), errorOf? (expandLine ms l)) := by
  have hinvoked : ∀ name : String, isIdentifier name.toList = true → l.text = '#' :: name.toList →
      invoked? l.text = some name := fun name hname htext => invoked?_eq_some_iff.mpr ⟨hname, htext⟩
  refine ⟨fun d hd htext => ?_, fun name hname hnew htext => ?_, fun hother => ?_⟩
  · obtain ⟨m, hfind, hbody⟩ := (exists_find?_iff hnodup).mpr hd
    rw [expandLine, hinvoked d.1 (hnames d hd) htext]
    simp only [hfind, hbody, linesOf, errorOf?]
  · have hfind : ms.find? (·.name == name) = none := by
      by_contra hsome
      obtain ⟨m, hm⟩ := Option.ne_none_iff_exists'.mp hsome
      exact hnew (List.mem_map_of_mem ((exists_find?_iff hnodup).mp ⟨m, hm, rfl⟩))
    rw [expandLine, hinvoked name hname htext]
    simp only [hfind, linesOf, errorOf?]
  · have hnone : invoked? l.text = none := by
      by_contra hsome
      obtain ⟨name, hname⟩ := Option.ne_none_iff_exists'.mp hsome
      obtain ⟨hidentifier, htext⟩ := invoked?_eq_some_iff.mp hname
      exact hother name hidentifier htext
    rw [expandLine, hnone]
    rfl

theorem line_of_errorOf? {e : Error} (h : errorOf? (expandLine ms l) = some e) :
    e.line = l.number := by
  unfold expandLine at h
  split at h
  next => cases h
  next =>
    split at h
    next => cases h
    next =>
      obtain rfl := Option.some.inj h
      rfl

/-- The lines are replaced as they should be, if they have different numbers. -/
theorem replaced_of_collect {ls rest : List Line} {ds : List (String × List (List Char))}
    (hcollect : collect ls = { rest := rest, macros := ms }) (hentries : ms.map entry = ds)
    (hnodup : (ds.map Prod.fst).Nodup) (hnames : ∀ d ∈ ds, isIdentifier d.1.toList = true)
    (hnumbers : (rest.map Line.number).Nodup) : Replaced (expandLines ls) rest ds := by
  subst hentries
  have hbecomes := becomes_expandLine hnodup hnames
  have herrors : (expandLines ls).errors = rest.filterMap fun l => errorOf? (expandLine ms l) := by
    simp only [expandLines, hcollect, if_true, List.filterMap_map, Function.comp_def]
  refine ⟨⟨rest.map fun l => (linesOf (expandLine ms l), errorOf? (expandLine ms l)), ?_, ?_, ?_⟩, ?_⟩
  · rw [List.forall₂_map_right_iff]
    exact List.forall₂_same.mpr fun l _ => hbecomes l
  · simp only [expandLines, hcollect, if_true, List.flatMap_map]
  · rw [herrors, List.filterMap_map]
    rfl
  · intro l hl d hd htext e he hline
    rw [herrors] at he
    obtain ⟨l', hl', hfound⟩ := List.mem_filterMap.mp he
    -- the error is on a line with the same number, which is the line itself
    obtain rfl := List.inj_on_of_nodup_map hnumbers hl' hl ((line_of_errorOf? hfound).symm.trans hline)
    have hnone := congrArg Prod.snd ((hbecomes l').body d hd htext)
    rw [hfound] at hnone
    cases hnone

end

/-- Every line of a source text whose first token is the keyword starts a definition, and no name is
bound twice. If no other line starts with the letters of the keyword, every line outside definitions is
replaced as it should be. Otherwise such a line is taken for a definition, even if it holds only the
name of a macro, and nothing is replaced. -/
theorem expand_laid {source : String} {rest : List Line}
    {ds : List (String × List (List Char))}
    (h : Laid (fun text => ¬ Starts text) Written (significantLines source) rest ds)
    (hnodup : (ds.map Prod.fst).Nodup)
    (hstarts : ∀ l ∈ significantLines source, Starts l.text → keyword.toList <+: l.text) :
    ((∀ l ∈ rest, Plain l.text) → Replaced (expand source) rest ds) ∧
      ((∃ l ∈ rest, ¬ Plain l.text) → (expand source).lines = [] ∧ (expand source).errors ≠ []) := by
  constructor
  · intro hplain
    obtain ⟨ms, hcollect, hentries⟩ := collect_laid (h.defines hstarts hplain) hnodup
    have hsublist : rest.Sublist (significantLines source) := by
      have hrest := rest_collect (significantLines source)
      rwa [hcollect] at hrest
    have hnumbers : (rest.map Line.number).Nodup :=
      List.pairwise_map.mpr (((pairwise_significantLines source).sublist hsublist).imp Nat.ne_of_lt)
    exact replaced_of_collect hcollect hentries hnodup h.isIdentifier hnumbers
  · rintro ⟨l, hl, hkeyword⟩
    have herrors : (collect (significantLines source)).errors ≠ [] := by
      intro hnone
      have hfold := (Collected.finish_of_errors hnone).1
      rw [collect, hfold] at hnone
      exact hkeyword (h.plain_of_errors hstarts rfl hnone l hl)
    rw [expand, expandLines]
    simp only [if_neg herrors]
    exact ⟨trivial, herrors⟩

/-- A macro of two lines, used before its definition. -/
theorem expand_laid_two :
    let source := "#TWO\n#macro TWO \"mov i0 @1 ; one\" \\\n  \"exit\"\n.code"
    Replaced (expand source) [⟨1, "#TWO".toList⟩, ⟨4, ".code".toList⟩]
        [("TWO", ["mov i0 @1".toList, "exit".toList])] ∧
      (expand source).lines =
        [⟨1, "mov i0 @1".toList⟩, ⟨1, "exit".toList⟩, ⟨4, ".code".toList⟩] := by
  intro source
  let front : List Line := [⟨2, "#macro TWO \"mov i0 @1 ; one\" \\".toList⟩, ⟨3, "\"exit\"".toList⟩]
  have hlines : significantLines source =
      ⟨1, "#TWO".toList⟩ :: (front ++ [⟨4, ".code".toList⟩]) := by decide +kernel
  have hlast : Block ["\"exit\""] [] ["exit".toList] :=
    @Block.last _ "exit".toList (by decide +kernel)
  have hblock : Block ["\"mov i0 @1 ; one\"", continuation] ["\"exit\"".toList]
      ["mov i0 @1".toList, "exit".toList] :=
    @Block.more _ "mov i0 @1 ; one".toList _ _ _ _ (by decide +kernel) (by decide +kernel) hlast
  have hwritten : Written (front.map Line.text) "TWO" ["mov i0 @1".toList, "exit".toList] :=
    .mk (by decide +kernel) (by decide) hblock
  have hlaid : Laid (fun text => ¬ Starts text) Written (significantLines source)
      [⟨1, "#TWO".toList⟩, ⟨4, ".code".toList⟩] [("TWO", ["mov i0 @1".toList, "exit".toList])] := by
    rw [hlines]
    exact .line (by decide +kernel) (.definition hwritten (.line (by decide +kernel) .nil))
  refine ⟨(expand_laid hlaid (by decide) ?_).1 ?_, by decide +kernel⟩
  · rw [hlines]
    decide +kernel
  · decide +kernel

/-- A macro whose name starts like the keyword goes on is defined, but its use is taken for one more
definition. -/
theorem not_replaced_macros : ¬ ∀ (source : String) (rest : List Line)
    (ds : List (String × List (List Char))),
    Laid (fun text => ¬ Starts text) Written (significantLines source) rest ds →
      (ds.map Prod.fst).Nodup → Replaced (expand source) rest ds := by
  intro hall
  let source := "#macro macros \"nop\"\n.init main\n.code\nmain:\n#macros\nexit"
  let rest : List Line := [⟨2, ".init main".toList⟩, ⟨3, ".code".toList⟩, ⟨4, "main:".toList⟩,
    ⟨5, "#macros".toList⟩, ⟨6, "exit".toList⟩]
  let front : List Line := [⟨1, "#macro macros \"nop\"".toList⟩]
  have hlines : significantLines source = front ++ rest := by decide +kernel
  have hblock : Block ["\"nop\""] [] ["nop".toList] :=
    @Block.last _ "nop".toList (by decide +kernel)
  have hwritten : Written (front.map Line.text) "macros" ["nop".toList] :=
    .mk (by decide +kernel) (by decide) hblock
  have hlaid : Laid (fun text => ¬ Starts text) Written (significantLines source) rest
      [("macros", ["nop".toList])] := by
    rw [hlines]
    refine .definition hwritten ?_
    exact .line (by decide) (.line (by decide) (.line (by decide) (.line (by decide)
      (.line (by decide) .nil))))
  have hreplaced := hall source rest _ hlaid (by decide)
  refine hreplaced.no_error ⟨5, "#macros".toList⟩ (by decide) ("macros", ["nop".toList])
    List.mem_cons_self rfl ((Cause.macroHeader "#macros").onLine 5) ?_ rfl
  decide +kernel

end Macro

end RegisterMachine.Assembly
