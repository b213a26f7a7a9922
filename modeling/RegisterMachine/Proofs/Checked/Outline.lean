import Mathlib
import RegisterMachine.Assembly.Macro
import RegisterMachine.Assembly.Outline
import RegisterMachine.Proofs.Assembly.Lines
import RegisterMachine.Proofs.Checked.Line

namespace RegisterMachine.Checked

open Assembly

/-- The integer without sign that a literal stands for. -/
def magnitude (digits : List Char) : Option Int :=
  match Numeral.magnitude? digits with
  | none => none
  | some n => if n < Numeral.bound then some n else none

def numeral (s : List Char) : Option (Option Int) :=
  match s with
  | '-' :: digits => (magnitude digits).mapM neg
  | digits => some (magnitude digits)

/-- The integer that a literal stands for, if it lies in a range, ends included. -/
def numeralWithin (low high : Int) (s : List Char) : Option (Option Int) := do
  match ← numeral s with
  | none => return none
  | some z => return if low ≤ z ∧ z ≤ high then some z else none

def quad (s : List Char) : Option (Option UInt64) :=
  Option.map UInt64.ofInt <$> numeralWithin (-0x8000000000000000) 0xFFFFFFFFFFFFFFFF s

def index (s : List Char) : Option (Option UInt64) :=
  Option.map UInt64.ofInt <$> numeralWithin 0 0xFFFFFFFFFFFFFFFF s

theorem mapM_neg_magnitude (digits : List Char) :
    (magnitude digits).mapM neg = some ((magnitude digits).map (- ·)) := by
  cases h : magnitude digits with
  | none => rfl
  | some z =>
    have hz : neg z = some (-z) := by
      unfold magnitude at h
      split at h
      next => cases h
      next n _ =>
        split at h
        next hn =>
          obtain rfl := Option.some.inj h
          exact neg_of_lt hn
        next => cases h
    rw [Option.mapM_some, hz]
    rfl

theorem numeral_eq (s : List Char) : numeral s = some (Numeral.parse? s) := by
  have hsigned : ∀ digits : List Char, (magnitude digits).map (- ·) =
      match Numeral.magnitude? digits with
      | none => none
      | some n => if n < Numeral.bound then some (-(n : Int)) else none := by
    intro digits
    unfold magnitude
    split
    next => rfl
    next => split <;> rfl
  unfold numeral
  split
  next digits =>
    rw [mapM_neg_magnitude, hsigned]
    rfl
  next hplain =>
    unfold Numeral.parse?
    split
    next negative digits hsplit =>
      split at hsplit
      next => exact absurd rfl (hplain _)
      next =>
        obtain ⟨rfl, rfl⟩ := Prod.mk.inj hsplit
        rfl

theorem numeralWithin_eq (low high : Int) (s : List Char) :
    numeralWithin low high s = some (Numeral.parseWithin? low high s) := by
  rw [numeralWithin, numeral_eq, Numeral.parseWithin?]
  cases Numeral.parse? s <;> rfl

theorem quad_eq (s : List Char) : quad s = some (Numeral.quad? s) := by
  rw [quad, numeralWithin_eq]
  rfl

theorem index_eq (s : List Char) : index s = some (Numeral.index? s) := by
  rw [index, numeralWithin_eq]
  rfl

/-- A fold in which no step is undefined as long as something holds that all steps keep. -/
theorem foldlM_eq_some_of {α β : Type} {f : β → α → Option β} {g : β → α → β} {P : β → Prop}
    {l : List α} (h : ∀ b, P b → ∀ a ∈ l, f b a = some (g b a) ∧ P (g b a)) {b : β} (hb : P b) :
    l.foldlM f b = some (l.foldl g b) := by
  induction l generalizing b with
  | nil => rfl
  | cons a l ih =>
    obtain ⟨hstep, hkeep⟩ := h b hb a List.mem_cons_self
    rw [List.foldlM_cons, hstep, List.foldl_cons]
    exact ih (fun b hb a ha => h b hb a (List.mem_cons_of_mem _ ha)) hkeep

theorem foldlM_eq_some {α β : Type} {f : β → α → Option β} {g : β → α → β}
    (h : ∀ b a, f b a = some (g b a)) (l : List α) (b : β) : l.foldlM f b = some (l.foldl g b) :=
  foldlM_eq_some_of (P := fun _ => True) (fun b _ a _ => ⟨h b a, trivial⟩) trivial

namespace Macro

open Assembly.Macro

/-- The string at the front of the tokens, and whether the definition goes on after it. -/
def bodyLine (name : String) (tokens : List String) : Option (Except Cause (List Char × Bool)) :=
  let text (literal : String) : Option (Except Cause (List Char)) := do
    match ← unquote literal.toList with
    | some text => return .ok (← strip text)
    | none => return .error (.macroLiteral name)
  match tokens with
  | [literal] => do return (← text literal).map (·, false)
  | [literal, mark] => do
    match ← text literal with
    | .ok text =>
      return if mark = continuation then .ok (text, true) else .error (.macroContinuation name)
    | .error cause => return .error cause
  | _ => some (.error (.macroLine name))

/-- The name at the front of a definition, its first line, and whether the definition goes on. -/
def header (line : List Char) : Option (Except Cause (String × List Char × Bool)) := do
  match ← tokens line with
  | none => return .error .openStringInMacro
  | some chunks =>
    let word ← entry chunks 0
    if word = keyword ∧ (chunks.length = 3 ∨ chunks.length = 4) then
      let name ← entry chunks 1
      if isIdentifier name.toList then
        let first ← bodyLine name (← slice chunks 2 chunks.length)
        return first.map (name, ·)
      else return .error (.macroName name)
    else return .error (.macroHeader (String.ofList line))

def continued (name : String) (line : List Char) : Option (Except Cause (List Char × Bool)) := do
  match ← tokens line with
  | none => return .error .openStringInMacro
  | some tokens => bodyLine name tokens

def step (c : Collected) (l : Line) : Option Collected :=
  match c.pending with
  | some m => do
    match ← continued m.name l.text with
    | .ok (text, more) => return c.extend m text more
    | .error cause => return { c with errors := c.errors ++ [cause.onLine l.number], pending := none }
  | none =>
    if keyword.toList.isPrefixOf l.text then do
      match ← header l.text with
      | .ok (name, first, more) => return c.extend ⟨name, [], l.number⟩ first more
      | .error cause => return { c with errors := c.errors ++ [cause.onLine l.number] }
    else some { c with rest := c.rest ++ [l] }

/-- The definitions among some lines, and the lines outside them. -/
def collect (ls : List Line) : Option Collected :=
  Collected.finish <$> ls.foldlM step {}

/-- Takes the definitions out of a source text and replaces the uses of macros. -/
def expand (source : String) : Option Expansion := do
  let c ← collect (← significantLines source)
  let nested := nestedWarnings c.macros
  if c.errors = [] then
    let results := c.rest.map (expandLine c.macros)
    let isUsed (m : Assembly.Macro) := c.rest.any fun l => invoked? l.text = some m.name
    return {
      lines := results.flatMap linesOf
      errors := results.filterMap errorOf?
      warnings := nested ++ (c.macros.filter fun m => !isUsed m).map unusedWarning }
  else return { lines := [], errors := c.errors, warnings := nested }

section

variable {line : List Char} {chunks : List String}

theorem bodyLine_eq (name : String) (tokens : List String) :
    bodyLine name tokens = some (Assembly.Macro.bodyLine name tokens) := by
  unfold bodyLine Assembly.Macro.bodyLine
  simp only [unquote_eq, strip_eq]
  rcases tokens with _ | ⟨literal, _ | ⟨mark, _ | ⟨third, rest⟩⟩⟩
  case nil => rfl
  case cons.nil =>
    dsimp only
    cases unquote? literal <;> rfl
  case cons.cons.nil =>
    dsimp only
    cases unquote? literal <;> rfl
  case cons.cons.cons => rfl

theorem continued_eq (name : String) (line : List Char) :
    continued name line = some (Assembly.Macro.continued name line) := by
  rw [continued, tokens_eq, Assembly.Macro.continued]
  cases tokens? line with
  | none => rfl
  | some tokens => exact bodyLine_eq name tokens

/-- A line that starts with the keyword has a token. -/
theorem exists_token (h : keyword.toList <+: line) (htokens : tokens? line = some chunks) :
    ∃ word rest, chunks = word :: rest := by
  obtain ⟨back, rfl⟩ := h
  have hread : tokensFrom ['#'] false ("macro".toList ++ back) = some chunks := htokens
  obtain ⟨word, rest, hchunks, -⟩ := head?_tokensFrom hread rfl
  exact ⟨word, rest, hchunks⟩

theorem header_eq (h : keyword.toList <+: line) :
    header line = some (Assembly.Macro.header line) := by
  rw [header, tokens_eq, Assembly.Macro.header]
  cases htokens : tokens? line with
  | none => rfl
  | some chunks =>
    obtain ⟨word, rest, rfl⟩ := exists_token h htokens
    have hword : entry (word :: rest) 0 = some word := rfl
    simp only [Option.bind_eq_bind, Option.bind_some, hword]
    cases rest with
    | nil =>
      rw [if_neg (by simp)]
      rfl
    | cons name rest =>
      have hname : entry (word :: name :: rest) 1 = some name := rfl
      have hrest : slice (word :: name :: rest) 2 (word :: name :: rest).length = some rest :=
        slice_back (by simp)
      have hlength : ((word :: name :: rest).length = 3 ∨ (word :: name :: rest).length = 4) ↔
          (rest.length = 1 ∨ rest.length = 2) := by simp
      simp only [hlength, hname, hrest, Option.bind_some, bodyLine_eq]
      split
      next =>
        split
        next => cases Assembly.Macro.bodyLine name rest <;> rfl
        next => rfl
      next => rfl

theorem step_eq (c : Collected) (l : Line) : step c l = some (c.step l) := by
  unfold step Collected.step
  cases c.pending with
  | some m =>
    dsimp only
    rw [continued_eq]
    cases Assembly.Macro.continued m.name l.text <;> rfl
  | none =>
    dsimp only
    split
    next hkeyword =>
      rw [header_eq (List.isPrefixOf_iff_prefix.mp hkeyword)]
      cases Assembly.Macro.header l.text <;> rfl
    next => rfl

theorem collect_eq (ls : List Line) : collect ls = some (Assembly.Macro.collect ls) := by
  rw [collect, foldlM_eq_some step_eq]
  rfl

theorem expand_eq {source : String} (h : source.utf8ByteSize < Slot.limit) :
    expand source = some (Assembly.Macro.expand source) := by
  rw [expand, significantLines_eq h, Assembly.Macro.expand, expandLines]
  simp only [Option.bind_eq_bind, Option.bind_some, collect_eq]
  split <;> rfl

end

end Macro

namespace Outline

open Assembly.Outline

/-- The interrupt that the code behind a label of this name handles. -/
def interrupt (name : String) : Option (Option UInt64) :=
  if Label.handlerMark.toList.isPrefixOf name.toList then
    index (name.toList.drop Label.handlerMark.toList.length)
  else some none

def addLabel (o : Outline) (line : Nat) (name : String) (arguments : List String) : Option Outline := do
  if isIdentifier name.toList = false then return o.addError line (.labelName name)
  else if arguments ≠ [] then return o.addError line (.labelNotAlone name)
  else if o.labels.any (·.name == name) then return o.addError line (.labelTwice name)
  else
    let index := o.code.length
    let o := { o with labels := o.labels ++ [⟨name, index⟩] }
    match ← interrupt name with
    | none => return o
    | some id =>
      if o.handlers.any (·.1 == id) then return o.addError line (.handlerTwice id)
      else return { o with handlers := o.handlers ++ [(id, index)] }

def addTokens (o : Outline) (line : Nat) (head : String) (arguments : List String) : Option Outline := do
  if head.toList.head? = some '.' then return o.addDirective line head arguments
  else if o.inCode = false then return o.addError line (.beforeCode head)
  else if head.toList.getLast? = some ':' then
    addLabel o line (String.ofList head.toList.dropLast) arguments
  else
    match Opcode.ofMnemonic? head with
    | some op => return { o with code := o.code ++ [⟨line, op, arguments⟩] }
    | none => return o.addError line (.mnemonic head)

def addLine (o : Outline) (l : Line) : Option Outline := do
  match ← tokens l.text with
  | none => return o.addError l.number .openString
  | some pieces =>
    if pieces = [] then return o
    let head ← entry pieces 0
    let arguments ← slice pieces 1 pieces.length
    addTokens o l.number head arguments

def ofLines (ls : List Line) : Option Outline :=
  Assembly.Outline.finish <$> ls.foldlM addLine {}

theorem interrupt_eq (name : String) : interrupt name = some (Label.interrupt? name) := by
  unfold interrupt Label.interrupt?
  split
  next => exact index_eq _
  next => rfl

theorem addLabel_eq (o : Outline) (line : Nat) (name : String) (arguments : List String) :
    addLabel o line name arguments = some (o.addLabel line name arguments) := by
  unfold addLabel Assembly.Outline.addLabel
  simp only [interrupt_eq, Option.bind_eq_bind, Option.bind_some]
  split
  next => rfl
  next =>
    split
    next => rfl
    next =>
      split
      next => rfl
      next =>
        cases Label.interrupt? name with
        | none => rfl
        | some id =>
          dsimp only
          split <;> rfl

theorem addTokens_eq (o : Outline) (line : Nat) (head : String) (arguments : List String) :
    addTokens o line head arguments = some (o.addTokens line head arguments) := by
  unfold addTokens Assembly.Outline.addTokens
  split
  next => rfl
  next =>
    split
    next => rfl
    next =>
      split
      next => exact addLabel_eq o line _ arguments
      next => cases Opcode.ofMnemonic? head <;> rfl

theorem addLine_eq (o : Outline) (l : Line) : addLine o l = some (o.addLine l) := by
  rw [addLine, tokens_eq, Assembly.Outline.addLine]
  rcases tokens? l.text with _ | _ | ⟨head, arguments⟩
  case none => rfl
  case some.nil => rfl
  case some.cons =>
    have harguments : slice (head :: arguments) 1 (head :: arguments).length = some arguments :=
      slice_back (by simp)
    simp only [Option.bind_eq_bind, Option.bind_some, harguments]
    exact addTokens_eq o l.number head arguments

theorem ofLines_eq (ls : List Line) : ofLines ls = some (Assembly.Outline.ofLines ls) := by
  rw [ofLines, foldlM_eq_some addLine_eq]
  rfl

end Outline

end RegisterMachine.Checked
