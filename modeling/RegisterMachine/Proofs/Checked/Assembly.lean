import Mathlib
import RegisterMachine.Assembly.Assemble
import RegisterMachine.Assembly.Diagnostic
import RegisterMachine.Proofs.Checked.Outline

namespace RegisterMachine.Checked

open Assembly

namespace Declarations

open Assembly.Declarations

/-- The value of an integer constant whose type has the given range. -/
def integer (low high : Int) (head value : String) : Option (Except Cause Int) := do
  match ← numeralWithin low high value.toList with
  | some z => return .ok z
  | none => return .error (.constantRange value head)

/-- The constant that a directive declares with a value. -/
def constant (head value : String) : Option (Except Cause Constant) := do
  match head with
  | ".string" =>
    match ← unquote value.toList with
    | some text => return .ok (.string (String.ofList text))
    | none => return .error (.notString value)
  | ".float" =>
    match Double.ofText? value with
    | some d => return .ok (.float d)
    | none => return .error (.notFloat value)
  | ".u8" => return (← integer 0 0xFF head value).map fun z => .u8 (UInt8.ofInt z)
  | ".u16" => return (← integer 0 0xFFFF head value).map fun z => .u16 (UInt16.ofInt z)
  | ".u32" => return (← integer 0 0xFFFFFFFF head value).map fun z => .u32 (UInt32.ofInt z)
  | ".u64" => return (← integer 0 0xFFFFFFFFFFFFFFFF head value).map fun z => .u64 (UInt64.ofInt z)
  | ".i8" => return (← integer (-0x80) 0x7F head value).map fun z => .i8 (Int8.ofInt z)
  | ".i16" => return (← integer (-0x8000) 0x7FFF head value).map fun z => .i16 (Int16.ofInt z)
  | ".i32" => return (← integer (-0x80000000) 0x7FFFFFFF head value).map fun z => .i32 (Int32.ofInt z)
  | ".i64" =>
    return (← integer (-0x8000000000000000) 0x7FFFFFFFFFFFFFFF head value).map fun z => .i64 (Int64.ofInt z)
  | _ => return .error (.directive head)

def debugLevel (argument : String) : Option (Except Cause DebugLevel) := do
  match ← numeralWithin 0 3 argument.toList with
  | some z =>
    match DebugLevel.ofNat? z.toNat with
    | some level => return .ok level
    | none => return .error (.debugRange argument)
  | none => return .error (.debugRange argument)

def setEntry (o : Outline) (d : Declarations) (isFirst : Bool) (head : String)
    (arguments : List String) : Option (Except Cause Declarations) := do
  if isFirst = false then return .error .initNotFirst
  else if arguments.length = 1 then
    let name ← entry arguments 0
    match o.label? name with
    | some index => return .ok { d with entry := some index }
    | none => return .error (.labelUnknown name)
  else return .error (.argumentCount head 1 arguments.length)

def setDebug (d : Declarations) (head : String) (arguments : List String) :
    Option (Except Cause Declarations) := do
  if arguments.length = 1 then
    if d.debug.isSome then return .error .debugTwice
    else
      let level ← debugLevel (← entry arguments 0)
      return level.map fun level => { d with debug := some level }
  else return .error (.argumentCount head 1 arguments.length)

def addConstant (o : Outline) (d : Declarations) (head : String) (arguments : List String) :
    Option (Except Cause Declarations) := do
  if arguments.length = 2 then
    let name ← entry arguments 0
    if isIdentifier name.toList = false then return .error (.constantName name)
    else
      match ← constant head (← entry arguments 1) with
      | .error cause => return .error cause
      | .ok value =>
        if d.constants.any (·.name == name) || (o.label? name).isSome then
          return .error (.constantTwice name)
        else
          -- The length of the pool is counted along with the constants.
          let _ ← Checked.add (poolSize d.constants) value.poolSize
          return .ok { d with constants := d.constants ++ [⟨name, value⟩] }
  else return .error (.argumentCount head 2 arguments.length)

def add (o : Outline) (d : Declarations) (isFirst : Bool) (directive : Directive) :
    Option (Except Cause Declarations) := do
  let pieces := directive.head :: directive.arguments
  let head ← entry pieces 0
  let arguments ← slice pieces 1 pieces.length
  match head with
  | ".init" => setEntry o d isFirst head arguments
  | ".debug" => setDebug d head arguments
  | head => addConstant o d head arguments

/-- The declarations after one more directive, which may be wrong. -/
def step (o : Outline) (d : Declarations) (isFirst : Bool) (directive : Directive) :
    Option Declarations := do
  match ← add o d isFirst directive with
  | .ok d => return d
  | .error cause => return { d with errors := d.errors ++ [cause.onLine directive.line] }

def ofOutline (o : Outline) : Option Declarations := do
  match o.directives with
  | [] => return Assembly.Declarations.finish {}
  | first :: rest =>
    let d ← rest.foldlM (fun d => step o d false) (← step o {} true first)
    return d.finish

theorem integer_eq (low high : Int) (head value : String) :
    integer low high head value = some (Assembly.Declarations.integer low high head value) := by
  rw [integer, numeralWithin_eq, Assembly.Declarations.integer]
  cases Numeral.parseWithin? low high value.toList <;> rfl

theorem constant_eq (head value : String) :
    constant head value = some (Assembly.Declarations.constant head value) := by
  unfold constant Assembly.Declarations.constant
  simp only [integer_eq, unquote_eq]
  split
  next => cases unquote? value <;> rfl
  next => cases Double.ofText? value <;> rfl
  case h_11 => simp [*]
  all_goals rfl

theorem debugLevel_eq (argument : String) :
    debugLevel argument = some (Assembly.Declarations.debugLevel argument) := by
  rw [debugLevel, numeralWithin_eq, Assembly.Declarations.debugLevel]
  cases Numeral.parseWithin? 0 3 argument.toList with
  | none => rfl
  | some z =>
    simp only [Option.bind_eq_bind, Option.bind_some]
    cases DebugLevel.ofNat? z.toNat <;> rfl

theorem setEntry_eq (o : Outline) (d : Declarations) (isFirst : Bool) (head : String)
    (arguments : List String) :
    setEntry o d isFirst head arguments = some (d.setEntry o isFirst head arguments) := by
  unfold setEntry Assembly.Declarations.setEntry
  split
  next => rfl
  next =>
    rcases arguments with _ | ⟨name, _ | ⟨second, rest⟩⟩
    case nil => rfl
    case cons.nil =>
      have hname : entry [name] 0 = some name := rfl
      simp only [List.length_singleton, if_true, Option.bind_eq_bind, hname, Option.bind_some]
      cases o.label? name <;> rfl
    case cons.cons =>
      rw [if_neg (by simp)]
      rfl

theorem setDebug_eq (d : Declarations) (head : String) (arguments : List String) :
    setDebug d head arguments = some (d.setDebug head arguments) := by
  unfold setDebug Assembly.Declarations.setDebug
  rcases arguments with _ | ⟨argument, _ | ⟨second, rest⟩⟩
  case nil => rfl
  case cons.nil =>
    have hargument : entry [argument] 0 = some argument := rfl
    simp only [List.length_singleton, if_true, Option.bind_eq_bind, hargument, Option.bind_some,
      debugLevel_eq]
    split <;> rfl
  case cons.cons =>
    rw [if_neg (by simp)]
    rfl

theorem poolSize_concat (cs : List NamedConstant) (c : NamedConstant) :
    poolSize (cs ++ [c]) = poolSize cs + c.value.poolSize := by
  induction cs with
  | nil => exact Nat.add_comm _ _
  | cons c' cs ih => rw [List.cons_append, poolSize, poolSize, ih, Nat.add_assoc]

/-- The pool has to have a length that can be counted, also with the constant that is added. -/
theorem addConstant_eq {o : Outline} {d : Declarations} {head : String} {arguments : List String}
    (h : ∀ d', d.addConstant o head arguments = .ok d' → poolSize d'.constants < UInt64.size) :
    addConstant o d head arguments = some (d.addConstant o head arguments) := by
  unfold addConstant
  unfold Assembly.Declarations.addConstant at h ⊢
  rcases arguments with _ | ⟨name, _ | ⟨value, _ | ⟨third, rest⟩⟩⟩
  case nil => rfl
  case cons.nil => rfl
  case cons.cons.nil =>
    have hname : entry [name, value] 0 = some name := rfl
    have hvalue : entry [name, value] 1 = some value := rfl
    have hlength : [name, value].length = 2 := rfl
    simp only [hlength, if_true, Option.bind_eq_bind, hname, hvalue, Option.bind_some, constant_eq]
    split
    next => rfl
    next hident =>
      simp only [if_neg hident] at h
      cases hconstant : Assembly.Declarations.constant head value with
      | error cause => rfl
      | ok value =>
        rw [hconstant] at h
        dsimp only
        cases htaken : d.constants.any (·.name == name) || (o.label? name).isSome with
        | true => rfl
        | false =>
          rw [htaken] at h
          have hsize := h _ rfl
          rw [poolSize_concat] at hsize
          rw [add_of_lt hsize]
          rfl
  case cons.cons.cons =>
    rw [if_neg (by simp)]
    rfl

theorem add_eq {o : Outline} {d : Declarations} {isFirst : Bool} {directive : Directive}
    (h : ∀ d', d.add o isFirst directive = .ok d' → poolSize d'.constants < UInt64.size) :
    add o d isFirst directive = some (d.add o isFirst directive) := by
  obtain ⟨line, head, arguments⟩ := directive
  have hhead : entry (head :: arguments) 0 = some head := rfl
  have harguments : slice (head :: arguments) 1 (head :: arguments).length = some arguments :=
    slice_back (by simp)
  unfold add
  unfold Assembly.Declarations.add at h ⊢
  simp only [Option.bind_eq_bind, Option.bind_some, hhead, harguments]
  split
  next => exact setEntry_eq o d isFirst _ arguments
  next => exact setDebug_eq d _ arguments
  next =>
    simp only [*] at h
    simp [addConstant_eq h, *]

theorem step_eq {o : Outline} {d : Declarations} {isFirst : Bool} {directive : Directive}
    (h : poolSize (d.step o isFirst directive).constants < UInt64.size) :
    step o d isFirst directive = some (d.step o isFirst directive) := by
  rw [Assembly.Declarations.step] at h
  rw [step, Assembly.Declarations.step, add_eq]
  · cases d.add o isFirst directive <;> rfl
  · intro d' hadd
    rwa [hadd] at h

/-- The directives are all of some texts, which have together not more bytes than can be counted. -/
theorem ofOutline_eq {o : Outline} {texts : List (List Char)} (hsize : extent texts < UInt64.size)
    (h : ∀ directive ∈ o.directives, ∃ text ∈ texts, Holds text directive) :
    ofOutline o = some (Assembly.Declarations.ofOutline o) := by
  have hstep : ∀ isFirst d, Within texts d.constants → ∀ directive ∈ o.directives,
      step o d isFirst directive = some (d.step o isFirst directive) ∧
        Within texts (d.step o isFirst directive).constants := by
    intro isFirst d hwithin directive hdirective
    obtain ⟨text, htext, hholds⟩ := h directive hdirective
    have hnext : Within texts (d.step o isFirst directive).constants := hwithin.step htext hholds
    exact ⟨step_eq (hnext.poolSize_le.trans_lt hsize), hnext⟩
  have hempty : Within texts ({} : Declarations).constants :=
    ⟨[], rfl, List.nodup_nil, List.nil_subset texts, List.forall_mem_nil _⟩
  unfold ofOutline Assembly.Declarations.ofOutline
  cases hdirectives : o.directives with
  | nil => rfl
  | cons first rest =>
    rw [hdirectives] at hstep
    obtain ⟨hfirst, hwithin⟩ := hstep true {} hempty first List.mem_cons_self
    have hfold := foldlM_eq_some_of
      (fun d hd directive hmem => hstep false d hd directive (List.mem_cons_of_mem first hmem)) hwithin
    simp only [Option.bind_eq_bind, Option.bind_some, hfirst, hfold]
    rfl

end Declarations

namespace Scope

open Assembly.Scope

def value (s : Scope) (token : String) : Option (Except Cause UInt64) := do
  match token.toList with
  | '@' :: digits =>
    match ← quad digits with
    | some n => return .ok n
    | none => return .error (.valueRange token)
  | '&' :: name => return s.address (String.ofList name)
  | '#' :: name => return s.size (String.ofList name)
  | _ => return .error (.unmarkedValue token)

/-- The number of a system call or a debug mark. -/
def number (token : String) : Option (Except Cause UInt64) := do
  let digits :=
    match token.toList with
    | '@' :: digits => digits
    | digits => digits
  match ← index digits with
  | some n => return .ok n
  | none => return .error (.numberRange token)

/-- The operand that a token stands for at a position of the given kind. -/
def operand (s : Scope) (kind : OperandKind) (token : String) : Option (Except Cause Operand) := do
  match kind with
  | .register => return (register token).map .register
  | .target => return (s.target token).map .target
  | .immediate => return (← value s token).map .immediate
  | .number => return (← number token).map .number

/-- The operands that tokens stand for, one after the other. -/
def operands (s : Scope) : List OperandKind → List String → Option (Except Cause (List Operand))
  | kind :: kinds, token :: tokens => do
    match ← operand s kind token with
    | .error cause => return .error cause
    | .ok operand => return (← operands s kinds tokens).map (operand :: ·)
  | _, _ => some (.ok [])

def instruction (s : Scope) (l : CodeLine) : Option (Except Cause Instruction) := do
  let pieces := l.opcode.mnemonic :: l.operands
  let tokens ← slice pieces 1 pieces.length
  let mismatch : Cause := .operandCount l.opcode.mnemonic l.opcode.arity tokens.length
  if tokens.length = l.opcode.arity then
    match ← operands s l.opcode.operandKinds tokens with
    | .error cause => return .error cause
    | .ok operands =>
      match Instruction.ofOperands? l.opcode operands with
      | some i => return .ok i
      | none => return .error mismatch
  else return .error mismatch

theorem value_eq (s : Scope) (token : String) : value s token = some (s.value token) := by
  unfold value Assembly.Scope.value
  generalize token.toList = cs
  split
  next digits =>
    simp only [quad_eq, Option.bind_eq_bind, Option.bind_some]
    cases Numeral.quad? digits <;> rfl
  next => rfl
  next => rfl
  next => simp [*]

theorem number_eq (token : String) : number token = some (Assembly.Scope.number token) := by
  unfold number Assembly.Scope.number
  simp only [index_eq, Option.bind_eq_bind, Option.bind_some]
  cases Numeral.index? _ <;> rfl

theorem operand_eq (s : Scope) (kind : OperandKind) (token : String) :
    operand s kind token = some (s.operand kind token) := by
  cases kind with
  | register => rfl
  | target => rfl
  | immediate =>
    rw [operand, value_eq]
    rfl
  | number =>
    rw [operand, number_eq]
    rfl

theorem operands_eq (s : Scope) (kinds : List OperandKind) (tokens : List String) :
    operands s kinds tokens = some (s.operands kinds tokens) := by
  induction kinds generalizing tokens with
  | nil => rfl
  | cons kind kinds ih =>
    cases tokens with
    | nil => rfl
    | cons token tokens =>
      rw [operands, operand_eq, ih, Assembly.Scope.operands]
      cases s.operand kind token with
      | error cause => rfl
      | ok operand => cases s.operands kinds tokens <;> rfl

theorem instruction_eq (s : Scope) (l : CodeLine) : instruction s l = some (s.instruction l) := by
  have htokens : slice (l.opcode.mnemonic :: l.operands) 1 (l.opcode.mnemonic :: l.operands).length =
      some l.operands := slice_back (by simp)
  unfold instruction Assembly.Scope.instruction
  simp only [htokens, Option.bind_eq_bind, Option.bind_some, operands_eq]
  split
  next =>
    cases s.operands l.opcode.operandKinds l.operands with
    | error cause => rfl
    | ok operands =>
      dsimp only [bind, Except.bind]
      cases Instruction.ofOperands? l.opcode operands <;> rfl
  next => rfl

end Scope

/-- The instructions of some lines of code up to the first error, and the warnings on the way. -/
def instructions (s : Scope) : List CodeLine → Option (Except Error (List Instruction) × List String)
  | [] => some (.ok [], [])
  | l :: ls => do
    match ← Scope.instruction s l with
    | .error cause => return (.error (cause.onLine l.line), [])
    | .ok i =>
      let (rest, warnings) ← instructions s ls
      return ((i :: ·) <$> rest, moveWarnings l.line i ++ warnings)

/-- Assembles the lines of a program without macros, after the given warnings. -/
def assembleLines (ls : List Line) (warnings : List String) : Option Assembled := do
  let o ← Outline.ofLines ls
  if o.errors ≠ [] then return ⟨.error o.errors, warnings⟩
  else
    let d ← Declarations.ofOutline o
    match d.errors, d.entry with
    | [], some entry =>
      let (is, moves) ← instructions ⟨o, d⟩ o.code
      match is with
      | .ok is => return ⟨.ok (image o d entry is), warnings ++ moves⟩
      | .error e => return ⟨.error [e], warnings ++ moves⟩
    | es, _ => return ⟨.error es, warnings⟩

def assemble (source : String) : Option Assembled := do
  let x ← Macro.expand source
  if x.errors = [] then assembleLines x.lines x.warnings else return ⟨.error x.errors, x.warnings⟩

/-- The line of a source text as it is shown below an error. -/
def excerpt (source : String) (line : Nat) : Option String := do
  let index ← sub line 1
  match (Text.lines source.toList)[index]? with
  | some s => return "  |\n" ++ lineColumn line ++ " | " ++ String.ofList (withoutReturns s) ++ "\n  |"
  | none => return ""

/-- An error message with the place it is about. -/
def diagnostic (file source : String) (line : Nat) (message : String) : Option String := do
  let place := "error: " ++ message ++ "\n --> " ++ file
  if line = 0 then return place
  else return place ++ (":" ++ toString line ++ "\n" ++ (← excerpt source line))

theorem instructions_eq (s : Scope) (ls : List CodeLine) :
    instructions s ls = some (Assembly.instructions s ls) := by
  induction ls with
  | nil => rfl
  | cons l ls ih =>
    rw [instructions, Scope.instruction_eq, ih, Assembly.instructions]
    cases s.instruction l <;> rfl

theorem assembleLines_eq {ls : List Line} {texts : List (List Char)}
    (hsize : extent texts < UInt64.size) (h : ∀ l ∈ ls, l.text ∈ texts) (warnings : List String) :
    assembleLines ls warnings = some (Assembly.assembleLines ls warnings) := by
  have hdeclarations : Declarations.ofOutline (Assembly.Outline.ofLines ls) =
      some (Assembly.Declarations.ofOutline (Assembly.Outline.ofLines ls)) := by
    refine Declarations.ofOutline_eq hsize fun directive hdirective => ?_
    obtain ⟨l, hl, hholds⟩ := holds_of_mem_directives hdirective
    exact ⟨l.text, h l hl, hholds⟩
  unfold assembleLines Assembly.assembleLines
  simp only [Outline.ofLines_eq, hdeclarations, instructions_eq, Option.bind_eq_bind, Option.bind_some]
  generalize Assembly.Outline.ofLines ls = o
  generalize Assembly.Declarations.ofOutline o = d
  split
  next => rfl
  next =>
    cases d.errors with
    | cons e es => rfl
    | nil =>
      cases d.entry with
      | none => rfl
      | some entry =>
        dsimp only
        rcases Assembly.instructions ⟨o, d⟩ o.code with ⟨_ | is, moves⟩ <;> rfl

/-- No operation of the assembler is undefined. -/
theorem assemble_eq {source : String} (h : source.utf8ByteSize < Slot.limit) :
    assemble source = some (Assembly.assemble source) := by
  have hwords : Slot.limit < UInt64.size := by decide
  have hsize : extent (texts source) < UInt64.size :=
    (extent_texts_le source).trans_lt (h.trans hwords)
  have htexts : ∀ l ∈ (Assembly.Macro.expand source).lines, l.text ∈ texts source :=
    fun l hl => Macro.text_mem_texts hl
  rw [assemble, Macro.expand_eq h, Assembly.assemble]
  simp only [Option.bind_eq_bind, Option.bind_some, assembleLines_eq hsize htexts]
  split <;> rfl

/-- An error of the file as a whole has no line before it to be counted from. -/
theorem diagnostic_eq (file source : String) (line : Nat) (message : String) :
    diagnostic file source line message = some (Assembly.diagnostic file source line message) := by
  rw [diagnostic, Assembly.diagnostic]
  split
  next =>
    rw [String.append_empty]
    rfl
  next hline =>
    have hindex : sub line 1 = some (line - 1) := sub_of_le (Nat.pos_of_ne_zero hline)
    rw [excerpt, Assembly.excerpt, hindex]
    simp only [Option.bind_eq_bind, Option.bind_some]
    cases (Text.lines source.toList)[line - 1]? <;> rfl

end RegisterMachine.Checked
