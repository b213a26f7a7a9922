import Mathlib
import RegisterMachine.Proofs.Assembly.Declarations
import RegisterMachine.Proofs.Image.Binary

namespace RegisterMachine

theorem Constant.length_poolBytes (c : Constant) : c.poolBytes.length = c.poolSize := by
  cases c with
  | string s => exact Binary.length_toUTF8 s
  | _ => exact Bytes.length_ofNat _ _

namespace Assembly

/-- Where all keys differ, an entry has a key that stands neither before nor behind it. -/
theorem key_notMem_of_nodup {α κ : Type} {key : α → κ} {before after : List α} {a : α}
    (h : ((before ++ a :: after).map key).Nodup) :
    key a ∉ before.map key ∧ key a ∉ after.map key := by
  rw [List.map_append, List.map_cons] at h
  obtain ⟨-, hafter, hdisjoint⟩ := List.nodup_append.mp h
  exact ⟨fun hmem => hdisjoint _ hmem _ List.mem_cons_self rfl, (List.nodup_cons.mp hafter).1⟩

section

variable {α κ : Type} [BEq κ] [LawfulBEq κ] {key : α → κ}

theorem find?_key_of_nodup {before after : List α} {a : α}
    (h : ((before ++ a :: after).map key).Nodup) :
    (before ++ a :: after).find? (fun b => key b == key a) = some a := by
  refine List.find?_eq_some_iff_append.mpr ⟨beq_self_eq_true _, before, after, rfl, fun b hb => ?_⟩
  have hne : key b ≠ key a := fun he => (key_notMem_of_nodup h).1 (he ▸ List.mem_map_of_mem hb)
  simpa using hne

theorem takeWhile_key_of_nodup {before after : List α} {a : α}
    (h : ((before ++ a :: after).map key).Nodup) :
    (before ++ a :: after).takeWhile (fun b => key b != key a) = before := by
  have hbefore : ∀ b ∈ before, (key b != key a) = true := fun b hb =>
    bne_iff_ne.mpr fun he => (key_notMem_of_nodup h).1 (he ▸ List.mem_map_of_mem hb)
  rw [List.takeWhile_append_of_pos hbefore, List.takeWhile_cons_of_neg (by simp), List.append_nil]

end

section

variable {α β γ : Type} {R : α → β → Prop}

/-- What an entry of a list is related to stands behind what the entries before it are related to. -/
theorem exists_of_forall₂_append_cons {before after : List α} {a : α} {bs : List β}
    (h : List.Forall₂ R (before ++ a :: after) bs) :
    ∃ front b back, bs = front ++ b :: back ∧ List.Forall₂ R before front ∧ R a b := by
  induction before generalizing bs with
  | nil =>
    obtain ⟨b, back, hb, -, rfl⟩ := List.forall₂_cons_left_iff.mp h
    exact ⟨[], b, back, rfl, .nil, hb⟩
  | cons a' before ih =>
    obtain ⟨b', bs, hb', hrest, rfl⟩ := List.forall₂_cons_left_iff.mp h
    obtain ⟨front, b, back, rfl, hfront, hb⟩ := ih hrest
    exact ⟨b' :: front, b, back, rfl, .cons hb' hfront, hb⟩

/-- Every entry of a list is related to something if a whole list is related to it. -/
theorem exists_forall₂_iff {as : List α} :
    (∃ bs, List.Forall₂ R as bs) ↔ ∀ a ∈ as, ∃ b, R a b := by
  constructor
  · rintro ⟨bs, h⟩ a ha
    obtain ⟨before, after, rfl⟩ := List.append_of_mem ha
    obtain ⟨_, b, _, -, -, hb⟩ := exists_of_forall₂_append_cons h
    exact ⟨b, hb⟩
  · intro h
    induction as with
    | nil => exact ⟨[], .nil⟩
    | cons a as ih =>
      obtain ⟨b, hb⟩ := h a List.mem_cons_self
      obtain ⟨bs, hbs⟩ := ih fun a ha => h a (List.mem_cons_of_mem _ ha)
      exact ⟨b :: bs, .cons hb hbs⟩

theorem eq_map_of_forall₂ {Q : α → γ → Prop} {f : γ → β} {as : List α} {bs : List β} {cs : List γ}
    (h : List.Forall₂ R as bs) (h' : List.Forall₂ Q as cs)
    (hf : ∀ a b c, R a b → Q a c → b = f c) : bs = cs.map f := by
  induction h generalizing cs with
  | nil =>
    obtain rfl := List.forall₂_nil_left_iff.mp h'
    rfl
  | cons hab _ ih =>
    obtain ⟨c, cs, hac, hrest, rfl⟩ := List.forall₂_cons_left_iff.mp h'
    rw [List.map_cons, hf _ _ _ hab hac, ih hrest]

end

namespace Statement

@[simp] theorem instructions_label (name : String) (code : List Statement) :
    instructions (.label name :: code) = instructions code := rfl

@[simp] theorem instructions_instruction (op : Opcode) (operands : List String)
    (code : List Statement) :
    instructions (.instruction op operands :: code) = (op, operands) :: instructions code := rfl

theorem mem_labels_iff {index : Nat} {code : List Statement} {l : Label} :
    l ∈ labels index code ↔ ∃ before after, code = before ++ .label l.name :: after ∧
      index + (instructions before).length = l.index := by
  induction code generalizing index with
  | nil => simp [labels]
  | cons statement code ih =>
    cases statement with
    | label name =>
      rw [labels, List.mem_cons, ih]
      constructor
      · rintro (rfl | ⟨before, after, rfl, hindex⟩)
        · exact ⟨[], code, rfl, rfl⟩
        · exact ⟨.label name :: before, after, rfl, hindex⟩
      · rintro ⟨before, after, hcode, hindex⟩
        cases before with
        | nil =>
          obtain ⟨hname, -⟩ := List.cons.inj hcode
          have hl : l = ⟨name, l.index⟩ := by rw [Statement.label.inj hname]
          exact .inl (hl.trans (by rw [← hindex]; rfl))
        | cons statement before =>
          obtain ⟨rfl, rfl⟩ := List.cons.inj hcode
          exact .inr ⟨before, after, rfl, hindex⟩
    | instruction op operands =>
      rw [labels, ih]
      constructor
      · rintro ⟨before, after, rfl, hindex⟩
        refine ⟨.instruction op operands :: before, after, rfl, ?_⟩
        rw [← hindex]
        rw [instructions_instruction, List.length_cons]
        omega
      · rintro ⟨before, after, hcode, hindex⟩
        cases before with
        | nil => cases (List.cons.inj hcode).1
        | cons statement before =>
          obtain ⟨rfl, rfl⟩ := List.cons.inj hcode
          refine ⟨before, after, rfl, ?_⟩
          rw [← hindex]
          rw [instructions_instruction, List.length_cons]
          omega

theorem mem_labelNames_iff {index : Nat} {code : List Statement} {name : String} :
    name ∈ (labels index code).map Label.name ↔ .label name ∈ code := by
  induction code generalizing index with
  | nil => simp [labels]
  | cons statement code ih =>
    cases statement with
    | label name' => simp [labels, ih]
    | instruction op operands => simp [labels, ih]

theorem labels_append (index : Nat) (before after : List Statement) :
    labels index (before ++ after) =
      labels index before ++ labels (index + (instructions before).length) after := by
  induction before generalizing index with
  | nil => rfl
  | cons statement before ih =>
    cases statement with
    | label name => simp only [List.cons_append, labels, ih, instructions_label]
    | instruction op operands =>
      have hindex : index + 1 + (instructions before).length =
          index + (instructions (.instruction op operands :: before)).length := by
        rw [instructions_instruction, List.length_cons]
        omega
      simp only [List.cons_append, labels, ih, hindex]

end Statement

section

variable {p : Source} {o : Outline} {name : String}

theorem label?_eq_none_iff (hlabels : o.labels = p.labels) :
    o.label? name = none ↔ name ∉ p.labelNames := by
  rw [Outline.label?, Option.map_eq_none_iff, List.find?_eq_none, hlabels, Source.labelNames,
    ← any_beq_iff_mem_map, List.any_eq_true]
  simp

theorem Source.LabelAt.mem_labels {index : Nat} (h : p.LabelAt name index) :
    (⟨name, index⟩ : Label) ∈ p.labels := by
  obtain ⟨before, after, hcode, -, -, hindex⟩ := h
  exact Statement.mem_labels_iff.mpr ⟨before, after, hcode, (Nat.zero_add _).trans hindex⟩

theorem labelAt_of_mem (hnodup : p.labelNames.Nodup) {l : Label} (hl : l ∈ p.labels) :
    p.LabelAt l.name l.index := by
  obtain ⟨before, after, hcode, hindex⟩ := Statement.mem_labels_iff.mp hl
  have hsplit : p.labelNames = (Statement.labels 0 before).map Label.name ++
      l.name :: (Statement.labels (0 + (Statement.instructions before).length) after).map
        Label.name := by
    rw [Source.labelNames, Source.labels, hcode, Statement.labels_append, List.map_append]
    rfl
  rw [hsplit] at hnodup
  obtain ⟨-, hafter, hdisjoint⟩ := List.nodup_append.mp hnodup
  refine ⟨before, after, hcode, fun hmem => ?_, fun hmem => ?_, (Nat.zero_add _).symm.trans hindex⟩
  · exact hdisjoint _ (Statement.mem_labelNames_iff.mpr hmem) _ List.mem_cons_self rfl
  · exact (List.nodup_cons.mp hafter).1 (Statement.mem_labelNames_iff.mpr hmem)

/-- The index of a label is the number of instructions before the one line where it stands. -/
theorem label?_eq_some_iff (hlabels : o.labels = p.labels) (hnodup : p.labelNames.Nodup)
    {index : Nat} : o.label? name = some index ↔ p.LabelAt name index := by
  rw [Outline.label?, Option.map_eq_some_iff, hlabels]
  constructor
  · rintro ⟨l, hfind, rfl⟩
    have hname := List.find?_some hfind
    obtain rfl : l.name = name := beq_iff_eq.mp hname
    exact labelAt_of_mem hnodup (List.mem_of_find?_eq_some hfind)
  · intro hat
    obtain ⟨front, back, hsplit⟩ := List.append_of_mem hat.mem_labels
    rw [Source.labelNames, hsplit] at hnodup
    exact ⟨⟨name, index⟩, hsplit ▸ find?_key_of_nodup hnodup, rfl⟩

end

/-- A text gives one constant of a type at most. -/
theorem ConstantType.Gives.unique {t : ConstantType} {text : String} {c c' : Constant}
    (h : t.Gives text c) (h' : t.Gives text c') : c = c' :=
  Except.ok.inj ((constant_eq_ok_iff.mpr ⟨t, rfl, h⟩).symm.trans
    (constant_eq_ok_iff.mpr ⟨t, rfl, h'⟩))

namespace Declares

variable {o : Outline} {ds : List Declaration} {level : Option DebugLevel}
  {cs : List NamedConstant}

/-- The debug level is the one that is declared, if one is. -/
theorem levels (h : Declares o ds level cs) :
    List.Forall₂ (fun text (l : DebugLevel) => Numeral.Denotes text.toList l.toNat)
      (ds.filterMap Declaration.level?) level.toList := by
  induction h with
  | nil => exact .nil
  | debug _ hdenotes ih =>
    rw [List.filterMap_append]
    exact List.rel_append ih (.cons hdenotes .nil)
  | constant _ _ _ _ _ ih =>
    rw [List.filterMap_append]
    exact (List.append_nil _).symm ▸ ih

/-- The constants are those that are declared, in this order. -/
theorem constants (h : Declares o ds level cs) :
    List.Forall₂ (fun (c : ConstantLine) n => n.name = c.name ∧ c.type.Gives c.text n.value)
      (ds.filterMap Declaration.constant?) cs := by
  induction h with
  | nil => exact .nil
  | debug _ _ ih =>
    rw [List.filterMap_append]
    exact (List.append_nil _).symm ▸ ih
  | constant _ _ hgives _ _ ih =>
    rw [List.filterMap_append]
    exact List.rel_append ih (.cons ⟨rfl, hgives⟩ .nil)

theorem map_name (h : Declares o ds level cs) :
    cs.map NamedConstant.name = (ds.filterMap Declaration.constant?).map ConstantLine.name := by
  have hconstants := h.constants
  clear h
  generalize ds.filterMap Declaration.constant? = lines at hconstants
  induction hconstants with
  | nil => rfl
  | cons hname _ ih => rw [List.map_cons, List.map_cons, hname.1, ih]

theorem nodup (h : Declares o ds level cs) : (cs.map NamedConstant.name).Nodup := by
  induction h with
  | nil => exact List.nodup_nil
  | debug _ _ ih => exact ih
  | constant _ _ _ hnew _ ih =>
    rw [List.map_append]
    refine List.nodup_append.mpr ⟨ih, List.nodup_singleton _, ?_⟩
    rintro a ha b hb rfl
    obtain rfl := List.mem_singleton.mp hb
    exact hnew ha

theorem constant_name (h : Declares o ds level cs) : ∀ c ∈ ds.filterMap Declaration.constant?,
    isIdentifier c.name.toList ∧ o.label? c.name = none := by
  induction h with
  | nil => exact fun c hc => absurd hc List.not_mem_nil
  | debug _ _ ih =>
    rw [List.filterMap_append]
    exact fun c hc => ih c ((List.mem_append.mp hc).resolve_right List.not_mem_nil)
  | constant _ hname _ _ hlabel ih =>
    rw [List.filterMap_append]
    intro c hc
    rcases List.mem_append.mp hc with hc | hc
    · exact ih c hc
    · obtain rfl := List.mem_singleton.mp hc
      exact ⟨hname, hlabel⟩

/-- Declarations declare something if the debug level is given once at most, as one of the four, and
the constants have values and names, which differ from each other and from those of the labels. -/
theorem exists_of (hlength : (ds.filterMap Declaration.level?).length ≤ 1)
    (hlevel : ∀ text ∈ ds.filterMap Declaration.level?, ∃ z, Numeral.Denotes text.toList z ∧
      0 ≤ z ∧ z ≤ 3)
    (hname : ∀ c ∈ ds.filterMap Declaration.constant?,
      isIdentifier c.name.toList ∧ o.label? c.name = none)
    (hvalue : ∀ c ∈ ds.filterMap Declaration.constant?, ∃ value, c.type.Gives c.text value)
    (hnodup : ((ds.filterMap Declaration.constant?).map ConstantLine.name).Nodup) :
    ∃ level cs, Declares o ds level cs := by
  -- A second debug level is excluded by the number of levels before the last declaration.
  induction ds using List.reverseRecOn with
  | nil => exact ⟨none, [], .nil⟩
  | append_singleton ds declaration ih =>
    rw [List.filterMap_append] at hlength hlevel hname hvalue hnodup
    rw [List.length_append] at hlength
    rw [List.map_append] at hnodup
    obtain ⟨hnodup, -, hnew⟩ := List.nodup_append.mp hnodup
    obtain ⟨level, cs, hdeclares⟩ := ih (by omega)
      (fun text h => hlevel text (List.mem_append_left _ h))
      (fun c h => hname c (List.mem_append_left _ h))
      (fun c h => hvalue c (List.mem_append_left _ h)) hnodup
    cases declaration with
    | debug text =>
      obtain ⟨z, hdenotes, hlow, hhigh⟩ :=
        hlevel text (List.mem_append_right _ (List.mem_singleton_self text))
      have hnone : level = none := by
        have hlengths := hdeclares.levels.length_eq
        have hone : ([Declaration.debug text].filterMap Declaration.level?).length = 1 := rfl
        exact Option.toList_eq_nil_iff.mp (List.length_eq_zero_iff.mp (by omega))
      subst hnone
      obtain ⟨l, hl⟩ : ∃ l : DebugLevel, (l.toNat : Int) = z := by
        obtain rfl | rfl | rfl | rfl : z = 0 ∨ z = 1 ∨ z = 2 ∨ z = 3 := by omega
        · exact ⟨.none, rfl⟩
        · exact ⟨.minimal, rfl⟩
        · exact ⟨.moderate, rfl⟩
        · exact ⟨.extreme, rfl⟩
      exact ⟨some l, cs, .debug hdeclares (hl ▸ hdenotes)⟩
    | constant c =>
      have hc := List.mem_append_right (ds.filterMap Declaration.constant?)
        (List.mem_singleton_self c)
      obtain ⟨hidentifier, hlabel⟩ := hname c hc
      obtain ⟨value, hgives⟩ := hvalue c hc
      refine ⟨level, cs ++ [⟨c.name, value⟩], .constant hdeclares hidentifier hgives ?_ hlabel⟩
      rw [hdeclares.map_name]
      exact fun hmem => hnew _ hmem _ (List.mem_singleton_self _) rfl

end Declares

/-- What is known of the names of a program are its labels and its constants. -/
structure Scope.Knows (s : Scope) (p : Source) : Prop where
  labels : s.outline.labels = p.labels
  labels_nodup : p.labelNames.Nodup
  constants : ∃ level, Declares s.outline p.declarations level s.declarations.constants

namespace Scope.Knows

variable {s : Scope} {p : Source} {name : String}

theorem label?_eq_none_iff (h : s.Knows p) : s.outline.label? name = none ↔ name ∉ p.labelNames :=
  Assembly.label?_eq_none_iff h.labels

theorem label?_eq_some_iff (h : s.Knows p) {index : Nat} :
    s.outline.label? name = some index ↔ p.LabelAt name index :=
  Assembly.label?_eq_some_iff h.labels h.labels_nodup

theorem constants_nodup (h : s.Knows p) :
    (s.declarations.constants.map NamedConstant.name).Nodup := by
  obtain ⟨level, hdeclares⟩ := h.constants
  exact hdeclares.nodup

theorem constantAt_iff (h : s.Knows p) {before : List Constant} {value : Constant} :
    p.ConstantAt name before value ↔ ∃ front back,
      s.declarations.constants = front ++ ⟨name, value⟩ :: back ∧
        before = front.map NamedConstant.value := by
  obtain ⟨level, hdeclares⟩ := h.constants
  constructor
  · rintro ⟨cs, c, rest, hsplit, rfl, hgives, hbefore⟩
    have hconstants := hdeclares.constants
    change List.Forall₂ _ p.constants _ at hconstants
    rw [hsplit] at hconstants
    obtain ⟨front, n, back, hn, hfront, hname, hgives'⟩ := exists_of_forall₂_append_cons hconstants
    refine ⟨front, back, ?_, ?_⟩
    · rw [hn, hgives.unique hgives', ← hname]
    · exact eq_map_of_forall₂ hbefore hfront fun c b n hb hn => hb.unique hn.2
  · rintro ⟨front, back, hsplit, rfl⟩
    have hconstants := hdeclares.constants.flip
    rw [hsplit] at hconstants
    obtain ⟨cs, c, rest, hc, hfront, hname, hgives⟩ := exists_of_forall₂_append_cons hconstants
    refine ⟨cs, c, rest, hc, hname.symm, hgives, List.forall₂_map_right_iff.mpr ?_⟩
    exact hfront.flip.imp fun c n hn => hn.2

theorem length_flatMap_poolBytes (cs : List NamedConstant) :
    ((cs.map NamedConstant.value).flatMap Constant.poolBytes).length = Declarations.poolSize cs := by
  induction cs with
  | nil => rfl
  | cons c cs ih =>
    rw [List.map_cons, List.flatMap_cons, List.length_append, ih, Constant.length_poolBytes,
      Declarations.poolSize]

/-- The place of a constant is the length of the pool before it. -/
theorem address?_eq_some_iff (h : s.Knows p) {n : Nat} :
    s.declarations.address? name = some n ↔ ∃ before value, p.ConstantAt name before value ∧
      (before.flatMap Constant.poolBytes).length = n := by
  have hnodup := h.constants_nodup
  unfold Declarations.address?
  constructor
  · intro haddress
    split at haddress
    next hany =>
      obtain ⟨c, hc, rfl⟩ := List.mem_map.mp (any_beq_iff_mem_map.mp hany)
      obtain ⟨front, back, hsplit⟩ := List.append_of_mem hc
      rw [hsplit] at hnodup haddress
      have hat := h.constantAt_iff.mpr ⟨front, back, hsplit, rfl⟩
      refine ⟨front.map NamedConstant.value, c.value, hat, ?_⟩
      rw [length_flatMap_poolBytes, ← Option.some.inj haddress, takeWhile_key_of_nodup hnodup]
    next => cases haddress
  · rintro ⟨before, value, hat, rfl⟩
    obtain ⟨front, back, hsplit, rfl⟩ := h.constantAt_iff.mp hat
    rw [hsplit] at hnodup ⊢
    have hmem : name ∈ (front ++ ⟨name, value⟩ :: back).map NamedConstant.name :=
      List.mem_map_of_mem (f := NamedConstant.name) (List.mem_append_right front List.mem_cons_self)
    rw [if_pos (any_beq_iff_mem_map.mpr hmem), length_flatMap_poolBytes]
    exact congrArg (fun cs => some (Declarations.poolSize cs)) (takeWhile_key_of_nodup hnodup)

/-- The size of a constant is its length in the pool. -/
theorem size?_eq_some_iff (h : s.Knows p) {n : Nat} :
    s.declarations.size? name = some n ↔ ∃ before value, p.ConstantAt name before value ∧
      value.poolBytes.length = n := by
  have hnodup := h.constants_nodup
  rw [Declarations.size?, Option.map_eq_some_iff]
  constructor
  · rintro ⟨c, hfind, rfl⟩
    have hname := List.find?_some hfind
    obtain rfl : c.name = name := beq_iff_eq.mp hname
    obtain ⟨front, back, hsplit⟩ := List.append_of_mem (List.mem_of_find?_eq_some hfind)
    exact ⟨front.map NamedConstant.value, c.value,
      h.constantAt_iff.mpr ⟨front, back, hsplit, rfl⟩, c.value.length_poolBytes⟩
  · rintro ⟨before, value, hat, rfl⟩
    obtain ⟨front, back, hsplit, rfl⟩ := h.constantAt_iff.mp hat
    rw [hsplit] at hnodup ⊢
    exact ⟨⟨name, value⟩, find?_key_of_nodup hnodup, value.length_poolBytes.symm⟩

end Scope.Knows

end Assembly

end RegisterMachine
