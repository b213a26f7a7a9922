import Mathlib
import RegisterMachine.Proofs.Assembly.Source

namespace RegisterMachine

namespace Opcode

theorem ofMnemonic?_eq_some_iff {s : String} {op : Opcode} :
    ofMnemonic? s = some op ↔ s = op.mnemonic := by
  constructor
  · intro h
    have hs := List.find?_some h
    exact (beq_iff_eq.mp hs).symm
  · rintro rfl
    exact ofMnemonic?_mnemonic op

/-- No mnemonic starts like a directive or ends like a label. -/
theorem mnemonic_marks (op : Opcode) :
    op.mnemonic.toList.head? ≠ some '.' ∧ op.mnemonic.toList.getLast? ≠ some ':' := by
  have h : ∀ op ∈ all, op.mnemonic.toList.head? ≠ some '.' ∧
      op.mnemonic.toList.getLast? ≠ some ':' := by decide +kernel
  exact h op (mem_all op)

end Opcode

namespace Assembly

theorem isSome_tokensFrom (current : List Char) (quoted : Bool) (s : List Char) :
    (tokensFrom current quoted s).isSome ↔ (Even (s.count '"') ↔ quoted = false) := by
  induction s generalizing current quoted with
  | nil => cases quoted <;> simp [tokensFrom]
  | cons c s ih =>
    by_cases hc : c = '"'
    · have hcount : (c :: s).count '"' = s.count '"' + 1 := by simp [hc]
      rw [tokensFrom, if_pos hc, ih, hcount, Nat.even_add_one]
      cases quoted <;> simp
    · have hcount : (c :: s).count '"' = s.count '"' := List.count_cons_of_ne hc
      rw [tokensFrom, if_neg hc, hcount]
      split
      next hsep =>
        rw [Option.map_eq_map, Option.isSome_map, ih, hsep.2]
      next => exact ih _ quoted

/-- A line can be cut into tokens exactly if it has an even number of quotes. -/
theorem isSome_tokens? (s : List Char) : (tokens? s).isSome ↔ Even (s.count '"') := by
  rw [tokens?, isSome_tokensFrom]
  simp

theorem rows_nil {rows : List (List String)} : Rows [] rows ↔ rows = [] := by
  simp [Rows, eq_comm]

/-- The rows of some lines are the row of the first line, unless it is empty, and those of the
others. -/
theorem rows_cons {l : Line} {ls : List Line} {rows : List (List String)} :
    Rows (l :: ls) rows ↔ ∃ row rest, tokens? l.text = some row ∧ Rows ls rest ∧
      rows = if row = [] then rest else row :: rest := by
  cases ht : tokens? l.text with
  | none =>
    have hodd : ¬ Even (l.text.count '"') := by simp [← isSome_tokens?, ht]
    simp [Rows, hodd]
  | some row =>
    have heven : Even (l.text.count '"') := by simp [← isSome_tokens?, ht]
    simp only [Rows, List.forall_mem_cons, heven, true_and, List.filterMap_cons, ht,
      Option.some.injEq, List.filter_cons, decide_not]
    by_cases hrow : row = [] <;> simp [hrow, eq_comm]

/-- A row of tokens that is a directive other than the start of the code. -/
def IsDirective (row : List String) : Prop :=
  ∃ head arguments, row = head :: arguments ∧ head.toList.head? = some '.' ∧ head ≠ ".code"

theorem isDirective_init (name : String) : IsDirective [".init", name] :=
  ⟨_, _, rfl, rfl, by decide⟩

theorem isDirective_declaration (d : Declaration) : IsDirective d.tokens := by
  cases d with
  | debug level => exact ⟨_, _, rfl, rfl, by decide⟩
  | constant c =>
    have htype : c.type.directive.toList.head? = some '.' ∧ c.type.directive ≠ ".code" := by
      rcases c.type with ⟨⟨⟩⟩ | _ | _ <;> exact ⟨rfl, by decide⟩
    exact ⟨_, _, rfl, htype.1, htype.2⟩

theorem IsDirective.ne_start {row : List String} (h : IsDirective row) : row ≠ [".code"] := by
  obtain ⟨head, arguments, rfl, -, hne⟩ := h
  exact fun he => hne (List.cons.inj he).1

theorem ConstantType.directive_injective : Function.Injective directive := by
  intro s t h
  rcases s with ⟨⟨⟩⟩ | _ | _ <;> rcases t with ⟨⟨⟩⟩ | _ | _ <;>
    first | rfl | exact absurd h (by decide)

theorem Declaration.tokens_injective : Function.Injective tokens := by
  intro d e h
  cases d with
  | debug level =>
    cases e with
    | debug level' => simpa [tokens] using h
    | constant c => simp [tokens] at h
  | constant c =>
    cases e with
    | debug level => simp [tokens] at h
    | constant c' =>
      simp only [tokens, List.cons.injEq, and_true] at h
      obtain ⟨hdirective, hname, htext⟩ := h
      obtain ⟨t, name, text⟩ := c
      obtain ⟨t', name', text'⟩ := c'
      obtain rfl : t = t' := ConstantType.directive_injective hdirective
      obtain rfl : name = name' := hname
      obtain rfl : text = text' := htext
      rfl

theorem Statement.label_ne_instruction (name : String) (op : Opcode) (operands : List String) :
    (label name).tokens ≠ (instruction op operands).tokens := by
  intro h
  have hlast := op.mnemonic_marks.2
  rw [← (List.cons.inj h).1, String.toList_append] at hlast
  exact hlast List.getLast?_concat

theorem Statement.tokens_injective : Function.Injective tokens := by
  intro s t h
  cases s with
  | label name =>
    cases t with
    | label name' =>
      have hname : name ++ ":" = name' ++ ":" := (List.cons.inj h).1
      rw [← String.toList_inj, String.toList_append, String.toList_append] at hname
      rw [String.toList_inj.mp (List.append_cancel_right hname)]
    | instruction op operands => exact absurd h (label_ne_instruction name op operands)
  | instruction op operands =>
    cases t with
    | label name => exact absurd h.symm (label_ne_instruction name op operands)
    | instruction op' operands' =>
      obtain ⟨hmnemonic, rfl⟩ := List.cons.inj h
      have hop := Opcode.ofMnemonic?_mnemonic op
      rw [show op.mnemonic = op'.mnemonic from hmnemonic, Opcode.ofMnemonic?_mnemonic] at hop
      rw [Option.some.inj hop]

/-- What stands before and behind the first place of an entry. -/
theorem append_cons_inj {α : Type} {a : α} {front front' back back' : List α} (h : a ∉ front)
    (h' : a ∉ front') (he : front ++ a :: back = front' ++ a :: back') :
    front = front' ∧ back = back' := by
  induction front generalizing front' with
  | nil =>
    cases front' with
    | nil => exact ⟨rfl, (List.cons.inj he).2⟩
    | cons b front' => exact absurd (List.cons.inj he).1 fun hab => h' (hab ▸ List.mem_cons_self)
  | cons b front ih =>
    cases front' with
    | nil => exact absurd (List.cons.inj he).1 fun hab => h (hab ▸ List.mem_cons_self)
    | cons c front' =>
      obtain ⟨rfl, hrest⟩ := List.cons.inj he
      obtain ⟨rfl, rfl⟩ := ih (fun hmem => h (List.mem_cons_of_mem _ hmem))
        (fun hmem => h' (List.mem_cons_of_mem _ hmem)) hrest
      exact ⟨rfl, rfl⟩

/-- A program is known by its rows. -/
theorem Source.rows_injective : Function.Injective rows := by
  intro p q h
  have hstart : ∀ ds : List Declaration, [".code"] ∉ ds.map Declaration.tokens := by
    intro ds hmem
    obtain ⟨d, -, hd⟩ := List.mem_map.mp hmem
    exact (isDirective_declaration d).ne_start hd
  -- No directive starts the code, so the rows can be split at its start in one way only.
  obtain ⟨hentry, hrest⟩ := List.cons.inj h
  obtain ⟨hdeclarations, hcode⟩ := append_cons_inj (hstart _) (hstart _) hrest
  obtain ⟨entry, declarations, code⟩ := p
  obtain ⟨entry', declarations', code'⟩ := q
  obtain rfl : entry = entry' := by simpa using hentry
  obtain rfl := List.map_injective_iff.mpr Declaration.tokens_injective hdeclarations
  obtain rfl := List.map_injective_iff.mpr Statement.tokens_injective hcode
  rfl

/-- Lines are the rows of one program at most. -/
theorem rows_iff_eq {ls : List Line} {p : Source} (h : Rows ls p.rows) (q : Source) :
    Rows ls q.rows ↔ q = p := by
  constructor
  · intro hq
    exact Source.rows_injective (hq.2.symm.trans h.2)
  · rintro rfl
    exact h

end Assembly

end RegisterMachine
