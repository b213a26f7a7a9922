import Mathlib
import RegisterMachine.Proofs.Assembly.Assemble
import RegisterMachine.Proofs.Assembly.Tables
import RegisterMachine.Proofs.Image.RoundTrip

namespace RegisterMachine.Assembly

namespace Source

variable {p : Source}

theorem index_le {l : Label} (h : l ∈ p.labels) : l.index ≤ p.instructions.length := by
  obtain ⟨before, after, hcode, hindex⟩ := Statement.mem_labels_iff.mp h
  have hlength : p.instructions.length = (Statement.instructions before).length +
      (Statement.instructions (.label l.name :: after)).length := by
    rw [instructions, hcode, Statement.instructions, List.filterMap_append, List.length_append]
    rfl
  omega

theorem LabelAt.index_le {name : String} {index : Nat} (h : p.LabelAt name index) :
    index ≤ p.instructions.length :=
  Source.index_le h.mem_labels

end Source

theorem length_instructions_lt {i : Image} (h : i.encode.length < UInt64.size) :
    i.instructions.length < UInt64.size := by
  have hcode : i.instructions.length ≤ i.code.length := by
    rw [Image.code]
    exact Image.length_le_length_flatMap fun j => List.cons_ne_nil _ _
  have hlength := Image.length_encode i
  omega

namespace Analysis

variable {ls : List Line} {p : Source} {index : Nat} {i : Image}

theorem handlers (h : Analysis ls p index) :
    (Outline.ofLines ls).handlers = p.labels.filterMap Label.handler? :=
  h.shows.handlers

theorem handlers_nodup (h : Analysis ls p index) :
    ((Outline.ofLines ls).handlers.map Prod.fst).Nodup := by
  rw [h.handlers]
  exact h.admits.handlers_nodup

theorem loadable (h : Analysis ls p index)
    (hi : image (scope ls).outline (scope ls).declarations index i.instructions = i)
    (hsize : i.encode.length < UInt64.size) : i.Loadable := by
  have hsections : i.sections = sections p.labels := by rw [← hi, ← h.labels]; rfl
  have hinterrupts : i.interrupts = Assembly.handlers (Outline.ofLines ls).handlers := by
    rw [← hi]; rfl
  refine ⟨⟨by rw [← hi]; exact UInt8.le_refl _, ?_, ?_⟩, hsize⟩
  · rw [hsections]
    exact (sections_names p.labels).nodup_iff.mpr h.labels_nodup
  · rw [hinterrupts]
    exact (handlers_ids _).nodup_iff.mpr h.handlers_nodup

/-- The tables of the image are those of the program, as long as the places in it fit 64 bits. -/
theorem describes (h : Analysis ls p index) (hbuilds : p.Builds i.instructions)
    (hi : image (scope ls).outline (scope ls).declarations index i.instructions = i)
    (hsize : i.encode.length < UInt64.size) : p.Describes i := by
  have hcount : p.instructions.length < UInt64.size := by
    rw [hbuilds.length_eq]
    exact length_instructions_lt hsize
  -- A label stands behind at most all instructions, and each of them takes a byte at least.
  have hindex : ∀ l ∈ p.labels, (UInt64.ofNat l.index).toNat = l.index := fun l hl =>
    UInt64.toNat_ofNat_of_lt' (Nat.lt_of_le_of_lt (Source.index_le hl) hcount)
  obtain ⟨level, cs, hdeclares, hof⟩ := h.declares
  have hsections : i.sections = sections p.labels := by rw [← hi, ← h.labels]; rfl
  have hinterrupts : i.interrupts = Assembly.handlers (p.labels.filterMap Label.handler?) := by
    rw [← hi, ← h.handlers]; rfl
  have hconstants : i.constants = cs.map NamedConstant.value := by rw [← hi, hof]; rfl
  have hdebug : i.debug = level.getD .none := by rw [← hi, hof]; rfl
  have hentry : i.entry = UInt64.ofNat index := by rw [← hi]; rfl
  refine ⟨?_, ?_, ?_, ?_, ?_, ?_, ?_⟩
  · rw [hsections]
    refine ((sections_perm p.labels).map _).trans (List.Perm.of_eq ?_)
    rw [List.map_map]
    exact List.map_congr_left fun l hl => congrArg (Prod.mk l.name) (hindex l hl)
  · rw [hsections]
    exact sections_strict h.labels_nodup
  · intro id n
    simp only [hinterrupts, (handlers_perm _).mem_iff, List.mem_map, List.mem_filterMap,
      Label.handler?, Option.map_eq_some_iff]
    constructor
    · rintro ⟨_, ⟨_, ⟨l, hl, _, hid, rfl⟩, rfl⟩, rfl, rfl⟩
      exact ⟨l, hl, Label.interrupt?_eq_some_iff.mp hid, (hindex l hl).symm⟩
    · rintro ⟨l, hl, hhandles, rfl⟩
      exact ⟨⟨id, UInt64.ofNat l.index⟩, ⟨(id, l.index),
        ⟨l, hl, id, Label.interrupt?_eq_some_iff.mpr hhandles, rfl⟩, rfl⟩, rfl, hindex l hl⟩
  · rw [hinterrupts, ← h.handlers]
    exact handlers_strict h.handlers_nodup
  · rw [hconstants, List.forall₂_map_right_iff]
    exact hdeclares.constants.imp fun c n hn => hn.2
  · have hlevels := hdeclares.levels
    rw [hdebug]
    cases level with
    | none => exact .inl ⟨List.forall₂_nil_right_iff.mp hlevels, rfl⟩
    | some l =>
      obtain ⟨text, rest, hdenotes, hrest, htexts⟩ := List.forall₂_cons_right_iff.mp hlevels
      obtain rfl := List.forall₂_nil_right_iff.mp hrest
      exact .inr ⟨text, htexts, hdenotes⟩
  · have hat := h.labelAt
    rw [hentry, UInt64.toNat_ofNat_of_lt' (Nat.lt_of_le_of_lt hat.index_le hcount)]
    exact hat

end Analysis

/-- A source text without an error is a well-formed program, and the image that is loaded from its binary
has the tables of this program. -/
theorem exists_loaded {source : String} (h : (assemble source).errors = [])
    (hsize : (assemble source).byteCount < UInt64.size) :
    ∃ (p : Source) (index : Nat) (i : Image), Analysis (Macro.expand source).lines p index ∧
      p.WellFormed ∧ p.Describes i ∧ (assemble source).binary? = some i.encode ∧
      Image.load i.encode = .ok i ∧ i.encode.length < UInt64.size := by
  obtain ⟨i, himage⟩ := exists_assemble_of_errors h
  have hbinary : (assemble source).binary? = some i.encode := by
    rw [Assembled.binary?, himage]
    rfl
  rw [Assembled.byteCount, hbinary] at hsize
  obtain ⟨-, hlines⟩ := assemble_image?_eq_some_iff.mp himage
  obtain ⟨p, index, hanalysis, hbuilds, hi⟩ := assembleLines_image?_cases hlines
  exact ⟨p, index, i, hanalysis, hanalysis.wellFormed_iff.mpr ⟨_, hbuilds⟩,
    hanalysis.describes hbuilds hi hsize, hbinary, Image.load_encode (hanalysis.loadable hi hsize), hsize⟩

/-- The binary of a source text without an error is loaded, without a warning, as an image with the
tables of the program and the instructions that were built. Whatever the order in which the labels
are gone through, the sections and the bytes are the same. As all bytes in memory, those of the binary
are fewer than 64 bits can count. -/
theorem load_assembled {source : String} (h : (assemble source).errors = [])
    (hsize : (assemble source).byteCount < UInt64.size) :
    ∃ (p : Source) (bytes : Bytes) (i : Image),
      (∀ q : Source, Rows (Macro.expand source).lines q.rows ↔ q = p) ∧
      (assemble source).binary? = some bytes ∧ Image.load bytes = .ok i ∧ i.warnings = [] ∧
      p.Describes i ∧
      (instructions (scope (Macro.expand source).lines)
        (Outline.ofLines (Macro.expand source).lines).code).1 = .ok i.instructions ∧
      (∀ labels : List Label, labels.Perm (Outline.ofLines (Macro.expand source).lines).labels →
        sections labels = i.sections ∧ { i with sections := sections labels }.encode = bytes) ∧
      (assemble source).instructionCount = i.instructions.length ∧
      (assemble source).byteCount = bytes.length := by
  obtain ⟨i, himage⟩ := exists_assemble_of_errors h
  have hbinary : (assemble source).binary? = some i.encode := by
    rw [Assembled.binary?, himage]
    rfl
  have hcount : (assemble source).byteCount = i.encode.length := by
    rw [Assembled.byteCount, hbinary]
  rw [hcount] at hsize
  obtain ⟨-, hlines⟩ := assemble_image?_eq_some_iff.mp himage
  obtain ⟨p, index, hanalysis, hbuilds, hi⟩ := assembleLines_image?_cases hlines
  have hsections : ∀ labels : List Label,
      labels.Perm (Outline.ofLines (Macro.expand source).lines).labels →
      sections labels = i.sections := by
    intro labels hlabels
    rw [sections_eq_of_perm hlabels, ← hi]
    rfl
  refine ⟨p, i.encode, i, rows_iff_eq hanalysis.rows, hbinary,
    Image.load_encode (hanalysis.loadable hi hsize), ?_, hanalysis.describes hbuilds hi hsize,
    hanalysis.instructions_eq_ok_iff.mpr hbuilds, ?_, ?_, hcount⟩
  · rw [← hi]
    rfl
  · intro labels hlabels
    rw [hsections labels hlabels]
    exact ⟨rfl, rfl⟩
  · rw [Assembled.instructionCount, himage]

/-- A program with a handler, a debug level and two constants. -/
theorem load_assembled_handler :
    let source := ".init interrupt_3\n.debug 2\n.u8 a 5\n.string b \"xy\"\n.code\ninterrupt_3:\nmov i0, &b"
    (assemble source).errors = [] ∧ (assemble source).byteCount < UInt64.size ∧
      ∃ (p : Source) (bytes : Bytes) (i : Image), (assemble source).binary? = some bytes ∧
        Image.load bytes = .ok i ∧ i.warnings = [] ∧ p.Describes i := by
  intro source
  have herrors : (assemble source).errors = [] := by decide +kernel
  have hsize : (assemble source).byteCount < UInt64.size := by decide +kernel
  obtain ⟨p, bytes, i, -, hbinary, hload, hwarnings, hdescribes, -⟩ := load_assembled herrors hsize
  exact ⟨herrors, hsize, p, bytes, i, hbinary, hload, hwarnings, hdescribes⟩

end RegisterMachine.Assembly
