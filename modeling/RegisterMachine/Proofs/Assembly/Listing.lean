import Mathlib
import RegisterMachine.Proofs.Assembly.Image
import RegisterMachine.Proofs.Assembly.Written

namespace RegisterMachine

namespace Assembly

/-- The lines of some instructions and of the labels between them, of which the first is `k`. -/
def listingLines (k : Nat) : List Instruction → List String
  | [] => [toString k ++ ":"]
  | i :: is => (toString k ++ ":") :: i.text :: listingLines (k + 1) is

/-- The listing of some instructions as a source text. -/
def listing (is : List Instruction) : String :=
  "\n".intercalate (".init 0" :: ".code" :: listingLines 0 is)

/-- The image of a listing: the instructions, and a section for the label of each index. -/
def listed (is : List Instruction) : Image where
  version := Version.supported
  debug := .none
  sections := (List.range (is.length + 1)).map fun k => ⟨UInt64.ofNat k, toString k⟩
  interrupts := []
  constants := []
  entry := 0
  instructions := is

section Words

theorem isPlain_of_isDigit {c : Char} (h : c.isDigit = true) : isPlain c := by
  have hne : ∀ d : Char, d.isDigit = false → c ≠ d := by
    rintro d hd rfl
    rw [h] at hd
    cases hd
  have hbounds : 48 ≤ c.toNat ∧ c.toNat ≤ 57 := by
    simpa [Char.isDigit, UInt32.le_iff_toNat_le] using h
  have hranges : ∀ r ∈ Text.blankRanges, r.2 < 48 ∨ 57 < r.1 := by decide
  have hblank : Text.isBlank c = false := by
    rw [Text.isBlank, List.any_eq_false]
    intro r hr
    have hr := hranges r hr
    rw [Bool.and_eq_true, decide_eq_true_eq, decide_eq_true_eq]
    omega
  refine isPlain_iff.mpr ⟨hblank, ?_, hne '"' rfl, hne ';' rfl⟩
  simp [isSeparator, hne ',' rfl, hne ' ' rfl, hne '\t' rfl]

theorem mem_toString {n : Nat} {c : Char} (h : c ∈ (toString n).toList) : c.isDigit = true := by
  rw [Nat.toString_eq_repr, Nat.toList_repr] at h
  exact Nat.isDigit_of_mem_toDigits (by decide) (by decide) h

theorem toString_ne_nil (n : Nat) : (toString n).toList ≠ [] := by
  rw [Nat.toString_eq_repr, Nat.toList_repr]
  exact (Numeral.digits_toDigits n).ne_nil

theorem isIdentifier_toString (n : Nat) : isIdentifier (toString n).toList = true := by
  have hname : (toString n).toList.all isNameChar = true := by
    rw [List.all_eq_true]
    intro c hc
    simp [isNameChar, Char.isAlphanum, mem_toString hc]
  rw [isIdentifier, hname, Bool.and_true, decide_eq_true_eq]
  exact toString_ne_nil n

theorem isWord_toString (n : Nat) : IsWord (toString n).toList :=
  ⟨toString_ne_nil n, fun _ hc => isPlain_of_isDigit (mem_toString hc)⟩

theorem isWord_label (n : Nat) : IsWord (toString n ++ ":").toList := by
  rw [String.toList_append]
  refine ⟨List.append_ne_nil_of_left_ne_nil (toString_ne_nil n) _, fun c hc => ?_⟩
  rcases List.mem_append.mp hc with hc | hc
  · exact (isWord_toString n).2 c hc
  · rw [List.mem_singleton.mp hc]
    decide

theorem head?_toString (n : Nat) (rest : List Char) :
    ∃ c, ((toString n).toList ++ rest).head? = some c ∧ c.isDigit = true := by
  obtain ⟨c, s, hs⟩ := List.exists_cons_of_ne_nil (toString_ne_nil n)
  refine ⟨c, by rw [hs]; rfl, mem_toString (n := n) ?_⟩
  rw [hs]
  exact List.mem_cons_self

theorem isWord_name (r : Register) : IsWord r.name.toList := by
  cases r with
  | int i => revert i; decide +kernel
  | float i => revert i; decide +kernel
  | _ => decide +kernel

theorem isWord_text (o : Operand) : IsWord o.text.toList := by
  cases o with
  | register r => exact isWord_name r
  | target n | number n => exact isWord_toString n.toNat
  | immediate n =>
    have htext : (Operand.immediate n).text.toList = '@' :: (toString n.toNat).toList :=
      toList_marked '@' (toString n.toNat)
    rw [htext]
    refine ⟨List.cons_ne_nil _ _, ?_⟩
    rw [List.forall_mem_cons]
    exact ⟨by decide, (isWord_toString n.toNat).2⟩

theorem isWord_mnemonic (op : Opcode) :
    IsWord op.mnemonic.toList ∧ op.mnemonic.toList.head? ≠ some '#' := by
  have h : ∀ op ∈ Opcode.all, IsWord op.mnemonic.toList ∧ op.mnemonic.toList.head? ≠ some '#' := by
    decide +kernel
  exact h op (Opcode.mem_all op)

theorem Label.not_handles_toString (n : Nat) (id : UInt64) : ¬ Handles (toString n) id := by
  rintro ⟨text, htext, -⟩
  obtain ⟨c, hc, hdigit⟩ := head?_toString n []
  have hhead : ("interrupt_" ++ text).toList.head? = some 'i' := by
    rw [String.toList_append]
    rfl
  rw [List.append_nil, htext, hhead] at hc
  obtain rfl := Option.some.inj hc
  cases hdigit

end Words

namespace Source

/-- The lines of code of a listing. -/
def listedCode (k : Nat) : List Instruction → List Statement
  | [] => [.label (toString k)]
  | i :: is => .label (toString k) :: .instruction i.opcode (i.operands.map Operand.text) ::
      listedCode (k + 1) is

/-- The program of a listing. -/
def ofListing (is : List Instruction) : Source :=
  ⟨"0", [], listedCode 0 is⟩

theorem lines_listedCode (k : Nat) (is : List Instruction) :
    (listedCode k is).map (fun s => " ".intercalate s.tokens) = listingLines k is := by
  induction is generalizing k with
  | nil => rfl
  | cons i is ih =>
    rw [listedCode, List.map_cons, List.map_cons, ih]
    rfl

theorem listing_eq (is : List Instruction) : listing is = written (ofListing is).rows := by
  have hcode := lines_listedCode 0 is
  rw [listing, written, rows, ofListing, ← hcode]
  simp only [List.map_cons, List.map_nil, List.cons_append, List.nil_append, List.map_map]
  rfl

theorem writable_listedCode (k : Nat) (is : List Instruction) :
    ∀ s ∈ listedCode k is, Writable s.tokens := by
  have hlabel : ∀ k : Nat, Writable (Statement.label (toString k)).tokens := by
    intro k
    refine ⟨?_, _, [], rfl, ?_⟩
    · intro token htoken
      rw [List.mem_singleton.mp htoken]
      exact isWord_label k
    · obtain ⟨c, hc, hdigit⟩ := head?_toString k [':']
      rw [String.toList_append]
      intro hmark
      obtain rfl := Option.some.inj (hc.symm.trans hmark)
      cases hdigit
  induction is generalizing k with
  | nil =>
    intro s hs
    rw [List.mem_singleton.mp hs]
    exact hlabel k
  | cons i is ih =>
    obtain ⟨hword, hmark⟩ := isWord_mnemonic i.opcode
    have hinstruction : Writable (i.opcode.mnemonic :: i.operands.map Operand.text) := by
      refine ⟨?_, _, _, rfl, hmark⟩
      rw [List.forall_mem_cons, List.forall_mem_map]
      exact ⟨hword, fun o _ => isWord_text o⟩
    rw [listedCode, List.forall_mem_cons, List.forall_mem_cons]
    exact ⟨hlabel k, hinstruction, ih (k + 1)⟩

theorem writable_rows (is : List Instruction) : ∀ row ∈ (ofListing is).rows, Writable row := by
  have hinit : Writable [".init", "0"] :=
    ⟨by decide +kernel, _, _, rfl, by decide +kernel⟩
  have hstart : Writable [".code"] := ⟨by decide +kernel, _, _, rfl, by decide +kernel⟩
  rw [rows, ofListing]
  simp only [List.map_nil, List.cons_append, List.nil_append, List.forall_mem_cons,
    List.forall_mem_map]
  exact ⟨hinit, hstart, writable_listedCode 0 is⟩

theorem labels_listedCode (k : Nat) (is : List Instruction) : Statement.labels k (listedCode k is) =
    (List.range' k (is.length + 1)).map fun j => ⟨toString j, j⟩ := by
  induction is generalizing k with
  | nil => rfl
  | cons i is ih =>
    rw [listedCode, Statement.labels, Statement.labels, ih, List.length_cons,
      List.range'_succ (n := is.length + 1)]
    rfl

theorem instructions_listedCode (k : Nat) (is : List Instruction) :
    Statement.instructions (listedCode k is) =
      is.map fun i => (i.opcode, i.operands.map Operand.text) := by
  induction is generalizing k with
  | nil => rfl
  | cons i is ih =>
    rw [listedCode, Statement.instructions_label, Statement.instructions_instruction, ih]
    rfl

theorem labels_ofListing (is : List Instruction) :
    (ofListing is).labels = (List.range (is.length + 1)).map fun k => ⟨toString k, k⟩ := by
  rw [List.range_eq_range']
  exact labels_listedCode 0 is

theorem mem_labels_ofListing {is : List Instruction} {l : Label} :
    l ∈ (ofListing is).labels ↔ l.index ≤ is.length ∧ l.name = toString l.index := by
  rw [labels_ofListing, List.mem_map]
  constructor
  · rintro ⟨k, hk, rfl⟩
    exact ⟨Nat.lt_succ_iff.mp (List.mem_range.mp hk), rfl⟩
  · rintro ⟨hle, hname⟩
    refine ⟨l.index, List.mem_range.mpr (Nat.lt_succ_iff.mpr hle), ?_⟩
    rw [← hname]

theorem labelNames_ofListing (is : List Instruction) :
    (ofListing is).labelNames = (List.range (is.length + 1)).map fun k => toString k := by
  rw [labelNames, labels_ofListing, List.map_map]
  rfl

theorem labelNames_nodup (is : List Instruction) : (ofListing is).labelNames.Nodup := by
  rw [labelNames_ofListing]
  exact List.nodup_range.map fun j k h => Nat.repr_injective h

theorem labelAt_ofListing {is : List Instruction} {k : Nat} (h : k ≤ is.length) :
    (ofListing is).LabelAt (toString k) k := by
  have hl : (⟨toString k, k⟩ : Label) ∈ (ofListing is).labels := mem_labels_ofListing.mpr ⟨h, rfl⟩
  exact labelAt_of_mem (labelNames_nodup is) hl

section

variable {is : List Instruction}
  (htargets : ∀ i ∈ is, ∀ t, .target t ∈ i.operands → t.toNat ≤ is.length)
include htargets

/-- The text of an operand stands for it. -/
theorem resolves_ofListing {i : Instruction} (hi : i ∈ is) {o : Operand} (ho : o ∈ i.operands) :
    (ofListing is).Resolves o.text o := by
  have hdenotes : ∀ n : UInt64, Numeral.Denotes (toString n.toNat).toList n.toNat := by
    intro n
    have hlt := n.toNat_lt
    exact Numeral.denotes_toString (by omega)
  cases o with
  | register r => exact .register r
  | target t =>
    have hresolves := Resolves.target (labelAt_ofListing (htargets i hi t ho))
    rwa [UInt64.ofNat_toNat] at hresolves
  | immediate v =>
    have hlow : (0 : Int) ≤ v.toNat := Int.natCast_nonneg _
    have hhigh : (v.toNat : Int) < 2 ^ 64 := by exact_mod_cast v.toNat_lt
    have hvalue : UInt64.ofInt v.toNat = v := by
      apply UInt64.toNat_inj.mp
      exact_mod_cast Numeral.toNat_ofInt hlow hhigh
    have hresolves := Resolves.literal (p := ofListing is) (hdenotes v) (by omega) hhigh
    rwa [hvalue] at hresolves
  | number n => exact .number (hdenotes n)

theorem builds_ofListing : (ofListing is).Builds is := by
  have hinstructions : (ofListing is).instructions =
      is.map fun i => (i.opcode, i.operands.map Operand.text) := instructions_listedCode 0 is
  rw [Builds, hinstructions, List.forall₂_map_left_iff, List.forall₂_same]
  intro i hi
  refine ⟨rfl, ?_⟩
  rw [List.forall₂_map_left_iff, List.forall₂_same]
  exact fun o ho => resolves_ofListing htargets hi ho

theorem wellFormed_ofListing : (ofListing is).WellFormed where
  entry := by
    rw [labelNames_ofListing]
    exact List.mem_map_of_mem (List.mem_range.mpr (Nat.succ_pos _))
  levels_length := Nat.zero_le 1
  level _ h := by cases h
  constant_name _ h := by cases h
  constant_value _ h := by cases h
  constants_nodup := List.nodup_nil
  constant_label _ h := by cases h
  label_name := by
    rw [labelNames_ofListing, List.forall_mem_map]
    exact fun k _ => isIdentifier_toString k
  labels_nodup := labelNames_nodup is
  handlers := by
    rw [labelNames_ofListing, List.pairwise_map]
    exact List.pairwise_of_forall fun j k id h => (Label.not_handles_toString j id h).elim
  operands := exists_builds_iff.mp ⟨is, builds_ofListing htargets⟩

end

end Source

section

variable {ls : List Line} {is : List Instruction} {index : Nat}

theorem sections_ofListing (hcount : is.length < UInt64.size) :
    sections (Source.ofListing is).labels = (listed is).sections := by
  rw [sections, Source.labels_ofListing, List.map_map]
  -- The labels already stand in the order of their indices, as these fit 64 bits.
  refine List.mergeSort_of_pairwise ?_
  rw [List.pairwise_map]
  refine List.pairwise_lt_range.imp_of_mem ?_
  intro j k hj hk hlt
  have hle : k ≤ is.length := Nat.lt_succ_iff.mp (List.mem_range.mp hk)
  have hj : (UInt64.ofNat j).toNat = j := UInt64.toNat_ofNat_of_lt' (by omega)
  have hk : (UInt64.ofNat k).toNat = k := UInt64.toNat_ofNat_of_lt' (by omega)
  have hsections : sectionLE ⟨UInt64.ofNat j, toString j⟩ ⟨UInt64.ofNat k, toString k⟩ :=
    sectionLE_iff.mpr (.inl (by rw [hj, hk]; exact hlt))
  exact hsections

/-- The parts that are found in a listing are those of the image of its instructions. -/
theorem image_ofListing (h : Analysis ls (Source.ofListing is) index)
    (hcount : is.length < UInt64.size) :
    image (scope ls).outline (scope ls).declarations index is = listed is := by
  have hlabels : (scope ls).outline.labels = (Source.ofListing is).labels := h.labels
  have hhandlers : (scope ls).outline.handlers = [] := by
    refine h.handlers.trans (List.filterMap_eq_nil_iff.mpr fun l hl => ?_)
    rw [Label.handler?, Option.map_eq_none_iff, Option.eq_none_iff_forall_ne_some]
    intro id hid
    have hhandles := Label.interrupt?_eq_some_iff.mp hid
    rw [(Source.mem_labels_ofListing.mp hl).2] at hhandles
    exact Label.not_handles_toString l.index id hhandles
  have hindex : index = 0 := by
    have hl := Source.mem_labels_ofListing.mp h.labelAt.mem_labels
    have hname : (0 : Nat).repr = index.repr := hl.2
    exact (Nat.repr_injective hname).symm
  obtain ⟨level, cs, hdeclares, hof⟩ := h.declares
  have hconstants : cs = [] := List.forall₂_nil_left_iff.mp hdeclares.constants
  have hlevel : level = none :=
    Option.toList_eq_nil_iff.mp (List.forall₂_nil_left_iff.mp hdeclares.levels)
  have hnone : handlers [] = [] := List.mergeSort_nil
  rw [image, hlabels, hhandlers, hof, hconstants, hlevel, hindex, sections_ofListing hcount, hnone]
  rfl

/-- A listing of instructions whose targets are not behind all of them is assembled without an error,
and the binary is loaded as these instructions with a section for each label. As all bytes in memory,
those of the binary are fewer than 64 bits can count. -/
theorem load_listing
    (htargets : ∀ i ∈ is, ∀ t, .target t ∈ i.operands → t.toNat ≤ is.length) :
    (assemble (listing is)).errors = [] ∧ ((listed is).encode.length < UInt64.size →
      ∃ bytes, (assemble (listing is)).binary? = some bytes ∧ Image.load bytes = .ok (listed is)) := by
  obtain ⟨herrors, hrows⟩ := rows_written (Source.writable_rows is)
  rw [← Source.listing_eq] at herrors hrows
  obtain ⟨index, hanalysis⟩ := analysis_of_wellFormed hrows (Source.wellFormed_ofListing htargets)
  have hlines := hanalysis.image?_of_builds (Source.builds_ofListing htargets)
  have himage := assemble_image?_eq_some_iff.mpr ⟨herrors, hlines _⟩
  constructor
  · rw [Assembled.errors, Assembled.image?_eq_some_iff.mp himage]
  · intro hsize
    have hi := image_ofListing hanalysis (length_instructions_lt hsize)
    rw [hi] at himage
    refine ⟨(listed is).encode, ?_, Image.load_encode (hanalysis.loadable hi hsize)⟩
    rw [Assembled.binary?, himage]
    rfl

end

/-- Three instructions, of which the second one jumps behind the last one. -/
theorem load_listing_branch :
    let is : List Instruction := [.move (.int 1) 7, .branch .less (.int 1) .x0 3, .syscall 2]
    listing is = ".init 0\n.code\n0:\nmov i1 @7\n1:\nblt i1 x0 3\n2:\nsyscall 2\n3:" ∧
      (assemble (listing is)).errors = [] ∧
      ∃ bytes, (assemble (listing is)).binary? = some bytes ∧
        Image.load bytes = .ok (listed is) := by
  intro is
  have htargets : ∀ i ∈ is, ∀ t, .target t ∈ i.operands → t.toNat ≤ is.length := by
    simp [is, Instruction.operands]
  obtain ⟨herrors, hload⟩ := load_listing htargets
  exact ⟨by decide +kernel, herrors, hload (by decide +kernel)⟩

end Assembly

end RegisterMachine
