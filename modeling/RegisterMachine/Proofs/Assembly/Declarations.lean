import Mathlib
import RegisterMachine.Proofs.Assembly.Outline
import RegisterMachine.Proofs.Except

namespace RegisterMachine.Assembly

open Declarations

theorem integer_eq_ok_iff {low high z : Int} {head text : String} :
    integer low high head text = .ok z ↔ Numeral.Denotes text.toList z ∧ low ≤ z ∧ z ≤ high := by
  rw [← Numeral.parseWithin?_eq_some_iff, integer]
  cases Numeral.parseWithin? low high text.toList <;> simp

theorem unquote?_eq_some_iff {token : String} {s : List Char} :
    unquote? token = some s ↔ token = "\"" ++ String.ofList s ++ "\"" := by
  have htext : token = "\"" ++ String.ofList s ++ "\"" ↔ token.toList = '"' :: (s ++ ['"']) := by
    have hquoted : ("\"" ++ String.ofList s ++ "\"").toList = '"' :: (s ++ ['"']) := by
      simp
    rw [← String.toList_inj, hquoted]
  rw [htext, unquote?]
  split
  next rest hrest =>
    rw [hrest, List.cons.injEq, eq_self_iff_true, true_and]
    constructor
    · intro h
      split at h
      next hlast =>
        obtain rfl := Option.some.inj h
        exact (List.dropLast_append_getLast? _ hlast).symm
      next => cases h
    · rintro rfl
      rw [if_pos List.getLast?_concat, List.dropLast_concat]
  next hne =>
    simp only [reduceCtorEq, false_iff]
    exact hne _

theorem unquote?_sublist {token : String} {s : List Char} (h : unquote? token = some s) :
    s.Sublist token.toList := by
  have htoken : token.toList = '"' :: (s ++ ['"']) := by
    rw [unquote?_eq_some_iff.mp h]
    simp
  rw [htoken]
  exact (List.sublist_append_left s ['"']).cons '"'

theorem constant_integer (t : IntegerType) (text : String) :
    constant t.directive text = t.constant <$> integer t.low (t.bound - 1) t.directive text := by
  cases t <;> rfl

/-- The constants that a directive declares are those of its type. -/
theorem constant_eq_ok_iff {head text : String} {c : Constant} :
    constant head text = .ok c ↔ ∃ t : ConstantType, t.directive = head ∧ t.Gives text c := by
  have hinteger : ∀ t : IntegerType, constant t.directive text = .ok c →
      ∃ t' : ConstantType, t'.directive = t.directive ∧ t'.Gives text c := by
    intro t h
    rw [constant_integer] at h
    obtain ⟨z, hz, rfl⟩ := Except.map_eq_ok_iff.mp h
    obtain ⟨hdenotes, hlow, hhigh⟩ := integer_eq_ok_iff.mp hz
    exact ⟨.integer t, rfl, .integer hdenotes hlow (by omega)⟩
  constructor
  · intro h
    -- The integer types have one lemma, which asks for the call before it is opened.
    have hcopy := h
    unfold constant at h
    split at h
    case h_1 =>
      split at h
      next s hs =>
        obtain rfl := Except.ok.inj h
        rw [unquote?_eq_some_iff.mp hs]
        exact ⟨.string, rfl, .string⟩
      next => cases h
    case h_2 =>
      split at h
      next d hd =>
        obtain rfl := Except.ok.inj h
        exact ⟨.float, rfl, .float hd⟩
      next => cases h
    case h_3 => exact hinteger .u8 hcopy
    case h_4 => exact hinteger .u16 hcopy
    case h_5 => exact hinteger .u32 hcopy
    case h_6 => exact hinteger .u64 hcopy
    case h_7 => exact hinteger .i8 hcopy
    case h_8 => exact hinteger .i16 hcopy
    case h_9 => exact hinteger .i32 hcopy
    case h_10 => exact hinteger .i64 hcopy
    case h_11 => cases h
  · rintro ⟨t, rfl, h⟩
    cases h with
    | @integer t _ z hdenotes hlow hhigh =>
      refine (constant_integer t text).trans (Except.map_eq_ok_iff.mpr ⟨z, ?_, rfl⟩)
      exact integer_eq_ok_iff.mpr ⟨hdenotes, hlow, by omega⟩
    | float hd => simp [ConstantType.directive, constant, hd]
    | @string s =>
      have hs : unquote? ("\"" ++ s ++ "\"") = some s.toList := by
        rw [unquote?_eq_some_iff, String.ofList_toList]
      simp [ConstantType.directive, constant, hs]

theorem ofNat?_eq_some_iff {n : Nat} {level : DebugLevel} :
    DebugLevel.ofNat? n = some level ↔ level.toNat = n := by
  constructor
  · intro h
    unfold DebugLevel.ofNat? at h
    split at h <;> cases h <;> rfl
  · rintro rfl
    cases level <;> rfl

/-- A debug level is given by a text that denotes its number. -/
theorem debugLevel_eq_ok_iff {text : String} {level : DebugLevel} :
    debugLevel text = .ok level ↔ Numeral.Denotes text.toList level.toNat := by
  have hrange : level.toNat ≤ 3 := by cases level <;> decide
  unfold debugLevel
  constructor
  · intro h
    split at h
    next z hz =>
      obtain ⟨hdenotes, hlow, -⟩ := Numeral.parseWithin?_eq_some_iff.mp hz
      split at h
      next level' hlevel =>
        obtain rfl := Except.ok.inj h
        rwa [ofNat?_eq_some_iff.mp hlevel, Int.toNat_of_nonneg hlow]
      next => cases h
    next => cases h
  · intro h
    have hz : Numeral.parseWithin? 0 3 text.toList = some (level.toNat : Int) :=
      Numeral.parseWithin?_eq_some_iff.mpr ⟨h, by omega, by omega⟩
    have hlevel : DebugLevel.ofNat? (level.toNat : Int).toNat = some level :=
      ofNat?_eq_some_iff.mpr rfl
    simp only [hz, hlevel]

/-- What some declarations declare where the labels of an outline are known: the debug level, if any,
and the constants. -/
inductive Declares (o : Outline) :
    List Declaration → Option DebugLevel → List NamedConstant → Prop
  | nil : Declares o [] none []
  | debug {ds : List Declaration} {cs : List NamedConstant} {text : String} {level : DebugLevel} :
      Declares o ds none cs → Numeral.Denotes text.toList level.toNat →
      Declares o (ds ++ [.debug text]) (some level) cs
  | constant {ds : List Declaration} {level : Option DebugLevel} {cs : List NamedConstant}
      {c : ConstantLine} {value : Constant} : Declares o ds level cs → isIdentifier c.name.toList →
      c.type.Gives c.text value → c.name ∉ cs.map NamedConstant.name → o.label? c.name = none →
      Declares o (ds ++ [.constant c]) level (cs ++ [⟨c.name, value⟩])

namespace Declarations

variable {o : Outline} {d d' : Declarations}

/-- Behind the first directive, a directive without an error declares a debug level or a constant. -/
theorem add_cases {directive : Directive} (h : d.add o false directive = .ok d') :
    (∃ text level, directive.tokens = (Declaration.debug text).tokens ∧ d.debug = none ∧
        Numeral.Denotes text.toList level.toNat ∧ d' = { d with debug := some level }) ∨
      ∃ c value, directive.tokens = (Declaration.constant c).tokens ∧ isIdentifier c.name.toList ∧
        c.type.Gives c.text value ∧ c.name ∉ d.constants.map NamedConstant.name ∧
        o.label? c.name = none ∧ d' = { d with constants := d.constants ++ [⟨c.name, value⟩] } := by
  obtain ⟨line, head, arguments⟩ := directive
  unfold add at h
  split at h
  case h_1 => cases h
  case h_2 hhead =>
    obtain rfl : head = ".debug" := hhead
    unfold setDebug at h
    split at h
    next text harguments =>
      obtain rfl : arguments = [text] := harguments
      split at h
      next => cases h
      next hnone =>
        obtain ⟨level, hlevel, he⟩ := Except.bind_eq_ok_iff.mp h
        obtain rfl := Except.ok.inj he
        exact .inl ⟨text, level, rfl, by simpa using hnone, debugLevel_eq_ok_iff.mp hlevel, rfl⟩
    next => cases h
  case h_3 =>
    unfold addConstant at h
    split at h
    next name text harguments =>
      obtain rfl : arguments = [name, text] := harguments
      split at h
      next => cases h
      next hname =>
        obtain ⟨value, hvalue, he⟩ := Except.bind_eq_ok_iff.mp h
        obtain ⟨t, rfl, hgives⟩ := constant_eq_ok_iff.mp hvalue
        by_cases htaken : (d.constants.any (·.name == name) || (o.label? name).isSome) = true
        · rw [if_pos htaken] at he
          obtain ⟨_, hthrow, -⟩ := Except.bind_eq_ok_iff.mp he
          cases hthrow
        · rw [if_neg htaken] at he
          obtain rfl := Except.ok.inj he
          rw [Bool.or_eq_true, not_or, any_beq_iff_mem_map, Option.not_isSome_iff_eq_none] at htaken
          exact .inr ⟨⟨t, name, text⟩, value, rfl, Bool.not_eq_false _ ▸ hname, hgives, htaken.1,
            htaken.2, rfl⟩
    next => cases h

theorem add_debug {isFirst : Bool} {line : Nat} {text : String} {level : DebugLevel}
    (hnone : d.debug = none) (hdenotes : Numeral.Denotes text.toList level.toNat) :
    d.add o isFirst ⟨line, ".debug", [text]⟩ = .ok { d with debug := some level } := by
  have hlevel := debugLevel_eq_ok_iff.mpr hdenotes
  change d.setDebug ".debug" [text] = _
  simp only [setDebug, hnone, hlevel]
  rfl

theorem add_constant {isFirst : Bool} {line : Nat} {c : ConstantLine} {value : Constant}
    (hname : isIdentifier c.name.toList) (hgives : c.type.Gives c.text value)
    (hnew : c.name ∉ d.constants.map NamedConstant.name) (hlabel : o.label? c.name = none) :
    d.add o isFirst ⟨line, c.type.directive, [c.name, c.text]⟩ =
      .ok { d with constants := d.constants ++ [⟨c.name, value⟩] } := by
  have hadd : d.add o isFirst ⟨line, c.type.directive, [c.name, c.text]⟩ =
      d.addConstant o c.type.directive [c.name, c.text] := by
    rcases c.type with ⟨⟨⟩⟩ | _ | _ <;> rfl
  have hvalue := constant_eq_ok_iff.mpr ⟨c.type, rfl, hgives⟩
  have hfree : ¬ (d.constants.any (·.name == c.name) || (o.label? c.name).isSome) = true := by
    rw [Bool.or_eq_true, not_or, any_beq_iff_mem_map, Option.not_isSome_iff_eq_none]
    exact ⟨hnew, hlabel⟩
  rw [hadd, addConstant, hname, hvalue, if_neg (by decide)]
  exact if_neg hfree

theorem step_eq_of_errors {isFirst : Bool} {directive : Directive}
    (h : (d.step o isFirst directive).errors = []) :
    d.add o isFirst directive = .ok (d.step o isFirst directive) := by
  unfold step at h ⊢
  split
  next d' hadd => exact hadd
  next cause hadd => simp [hadd] at h

theorem step_eq_of_add {isFirst : Bool} {directive : Directive}
    (h : d.add o isFirst directive = .ok d') : d.step o isFirst directive = d' := by
  rw [step, h]

/-- Directives behind the first one leave the entry and the errors as they are. -/
theorem add_frame {directive : Directive} (h : d.add o false directive = .ok d') :
    d'.entry = d.entry ∧ d'.errors = d.errors := by
  rcases add_cases h with ⟨_, _, _, _, _, rfl⟩ | ⟨_, _, _, _, _, _, _, rfl⟩
  · exact ⟨rfl, rfl⟩
  · exact ⟨rfl, rfl⟩

theorem foldl_step_frame {rest : List Directive}
    (h : (rest.foldl (fun d => d.step o false) d).errors = []) :
    (rest.foldl (fun d => d.step o false) d).entry = d.entry ∧ d.errors = [] := by
  induction rest generalizing d with
  | nil => exact ⟨rfl, h⟩
  | cons directive rest ih =>
    obtain ⟨hentry, herrors⟩ := ih h
    obtain ⟨hentry', herrors'⟩ := add_frame (step_eq_of_errors herrors)
    exact ⟨hentry.trans hentry', herrors'.symm.trans herrors⟩

/-- Directives without an error behind the first one are declarations. -/
theorem exists_declares {rest : List Directive} (hdebug : d.debug = none)
    (hconstants : d.constants = []) (h : (rest.foldl (fun d => d.step o false) d).errors = []) :
    ∃ ds level cs, rest.map Directive.tokens = ds.map Declaration.tokens ∧ Declares o ds level cs ∧
      rest.foldl (fun d => d.step o false) d = { d with debug := level, constants := cs } := by
  -- The rules of `Declares` add a declaration at the end, so the induction takes the last directive.
  induction rest using List.reverseRecOn with
  | nil => exact ⟨[], none, [], rfl, .nil, by rw [← hdebug, ← hconstants]; rfl⟩
  | append_singleton rest directive ih =>
    rw [List.foldl_append, List.foldl_cons, List.foldl_nil] at h ⊢
    have hadd := step_eq_of_errors h
    have herrors := (add_frame hadd).2.symm.trans h
    obtain ⟨ds, level, cs, htokens, hdeclares, hfold⟩ := ih herrors
    rw [hfold] at hadd ⊢
    rcases add_cases hadd with
      ⟨text, level', hrow, hnone, hdenotes, hd⟩ |
      ⟨c, value, hrow, hname, hgives, hnew, hlabel, hd⟩
    · obtain rfl : level = none := hnone
      refine ⟨ds ++ [.debug text], some level', cs, ?_, .debug hdeclares hdenotes, hd⟩
      rw [List.map_append, List.map_append, htokens]
      exact congrArg _ (congrArg (· :: []) hrow)
    · refine ⟨ds ++ [.constant c], level, cs ++ [⟨c.name, value⟩], ?_,
        .constant hdeclares hname hgives hnew hlabel, hd⟩
      rw [List.map_append, List.map_append, htokens]
      exact congrArg _ (congrArg (· :: []) hrow)

theorem exists_snoc_of_map_tokens {rest : List Directive} {ds : List Declaration} {x : Declaration}
    (h : rest.map Directive.tokens = (ds ++ [x]).map Declaration.tokens) :
    ∃ front line, rest = front ++ [⟨line, x.tokens.headI, x.tokens.tail⟩] ∧
      front.map Directive.tokens = ds.map Declaration.tokens := by
  rw [List.map_append] at h
  obtain ⟨front, last, rfl, hfront, hlast⟩ := List.map_eq_append_iff.mp h
  obtain ⟨⟨line, head, arguments⟩, _, rfl, hrow, hnil⟩ := List.map_eq_cons_iff.mp hlast
  obtain rfl := List.map_eq_nil_iff.mp hnil
  rw [← hrow]
  exact ⟨front, line, rfl, hfront⟩

/-- Declarations make no error behind the first directive. -/
theorem foldl_step_of_declares {rest : List Directive} {ds : List Declaration}
    {level : Option DebugLevel} {cs : List NamedConstant} (hdebug : d.debug = none)
    (hconstants : d.constants = []) (hdeclares : Declares o ds level cs)
    (htokens : rest.map Directive.tokens = ds.map Declaration.tokens) :
    rest.foldl (fun d => d.step o false) d = { d with debug := level, constants := cs } := by
  induction hdeclares generalizing rest with
  | nil =>
    obtain rfl : rest = [] := List.map_eq_nil_iff.mp htokens
    rw [← hdebug, ← hconstants]
    rfl
  | debug _ hdenotes ih =>
    obtain ⟨front, line, rfl, hfront⟩ := exists_snoc_of_map_tokens htokens
    rw [List.foldl_append, List.foldl_cons, List.foldl_nil, ih hfront]
    exact step_eq_of_add (add_debug rfl hdenotes)
  | constant _ hname hgives hnew hlabel ih =>
    obtain ⟨front, line, rfl, hfront⟩ := exists_snoc_of_map_tokens htokens
    rw [List.foldl_append, List.foldl_cons, List.foldl_nil, ih hfront]
    exact step_eq_of_add (add_constant hname hgives hnew hlabel)

/-- Only `.init` asks whether a directive is the first one. -/
theorem add_of_ne_init {isFirst : Bool} {directive : Directive} (h : directive.head ≠ ".init") :
    d.add o isFirst directive = d.add o false directive := by
  unfold add
  split
  next hinit => exact absurd hinit h
  next => rfl
  next => rfl

/-- A first directive that sets the entry is the one for it. -/
theorem exists_init {first : Directive} (h : add o {} true first = .ok d')
    (hentry : d'.entry ≠ none) : ∃ name index, first.tokens = [".init", name] ∧
      o.label? name = some index ∧ d' = { entry := some index } := by
  obtain ⟨line, head, arguments⟩ := first
  by_cases hhead : head = ".init"
  · subst hhead
    change setEntry o {} true ".init" arguments = _ at h
    unfold setEntry at h
    rw [if_neg (by decide)] at h
    split at h
    next name =>
      split at h
      next index hindex => exact ⟨name, index, rfl, hindex, (Except.ok.inj h).symm⟩
      next => cases h
    next => cases h
  · rw [add_of_ne_init hhead] at h
    exact absurd (add_frame h).1 hentry

theorem finish_eq_of_errors (h : d.finish.errors = []) :
    d.finish = d ∧ d.errors = [] ∧ d.entry ≠ none := by
  by_cases hnone : d.entry = none ∧ d.errors = []
  · rw [finish, if_pos hnone] at h
    cases h
  · rw [finish, if_neg hnone] at h ⊢
    exact ⟨rfl, h, fun hentry => hnone ⟨hentry, h⟩⟩

/-- The directives of an outline without an error are the entry and declarations. -/
theorem exists_ofOutline (h : (ofOutline o).errors = []) :
    ∃ name index ds level cs,
      o.directives.map Directive.tokens = [".init", name] :: ds.map Declaration.tokens ∧
      o.label? name = some index ∧ Declares o ds level cs ∧
      ofOutline o = { entry := some index, debug := level, constants := cs } := by
  cases hdirectives : o.directives with
  | nil =>
    simp only [ofOutline, hdirectives] at h
    exact absurd rfl (finish_eq_of_errors h).2.2
  | cons first rest =>
    have hfinish : ofOutline o =
        (rest.foldl (fun d => d.step o false) (step o {} true first)).finish := by
      simp only [ofOutline, hdirectives]
    rw [hfinish] at h ⊢
    obtain ⟨hlast, herrors, hsome⟩ := finish_eq_of_errors h
    rw [hlast]
    obtain ⟨hentry, hfirst⟩ := foldl_step_frame herrors
    obtain ⟨name, index, hrow, hindex, hstep⟩ :=
      exists_init (step_eq_of_errors hfirst) (hentry ▸ hsome)
    rw [hstep] at herrors ⊢
    obtain ⟨ds, level, cs, htokens, hdeclares, hfold⟩ := exists_declares rfl rfl herrors
    exact ⟨name, index, ds, level, cs, by rw [List.map_cons, hrow, htokens], hindex, hdeclares, hfold⟩

/-- The entry and declarations make no error. -/
theorem ofOutline_of_declares {name : String} {index : Nat} {ds : List Declaration}
    {level : Option DebugLevel} {cs : List NamedConstant}
    (htokens : o.directives.map Directive.tokens = [".init", name] :: ds.map Declaration.tokens)
    (hindex : o.label? name = some index) (hdeclares : Declares o ds level cs) :
    ofOutline o = { entry := some index, debug := level, constants := cs } := by
  obtain ⟨⟨line, head, arguments⟩, rest, hdirectives, hrow, hrest⟩ := List.map_eq_cons_iff.mp htokens
  obtain ⟨rfl, rfl⟩ := List.cons.inj hrow
  have hfirst : step o {} true ⟨line, ".init", [name]⟩ = { entry := some index } := by
    apply step_eq_of_add
    change setEntry o {} true ".init" [name] = _
    simp only [setEntry, hindex]
    rfl
  have hfold := foldl_step_of_declares (d := { entry := some index }) rfl rfl hdeclares hrest
  rw [ofOutline, hdirectives]
  simp only [hfirst, hfold]
  rfl

end Declarations

end RegisterMachine.Assembly
