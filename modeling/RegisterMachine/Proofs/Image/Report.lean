import Mathlib
import RegisterMachine.Proofs.Image.RoundTrip

namespace RegisterMachine.Image

open Reader

variable {α κ : Type}

/-- This is the first one in the list that was there before. -/
def FirstRepeat (l : List κ) (k : κ) : Prop :=
  ∃ before after, l = before ++ k :: after ∧ before.Nodup ∧ k ∈ before

theorem exists_firstRepeat {l : List κ} (h : ¬ l.Nodup) : ∃ k, FirstRepeat l k := by
  -- From the end: the last one is the first repeat if there is none before it.
  induction l using List.reverseRecOn with
  | nil => exact absurd List.nodup_nil h
  | append_singleton l k ih =>
    by_cases hl : l.Nodup
    · have hk : k ∈ l := by
        by_contra hk
        exact h (List.nodup_append'.mpr ⟨hl, List.nodup_singleton k, by simpa using hk⟩)
      exact ⟨k, l, [], rfl, hl, hk⟩
    · obtain ⟨j, before, after, rfl, hbefore, hj⟩ := ih hl
      exact ⟨j, before, after ++ [k], by simp, hbefore, hj⟩

/-- Behind distinct entries, one with a key that was there before is the error. -/
theorem readDistinct_fails [BEq κ] [LawfulBEq κ] {read : Reader LoadError α} {encode : α → Bytes}
    {key : α → κ} {duplicate : κ → LoadError} {seen : List κ} {before : List α} {a : α} {n : Nat}
    (hread : ∀ b ∈ before ++ [a], read.Yields (encode b) b) (hkeys : (before.map key).Nodup)
    (hnew : ∀ b ∈ before, key b ∉ seen) (hrepeat : key a ∈ before.map key ++ seen)
    (hn : before.length < n) : (readDistinct read key duplicate seen n).Fails
      ((before ++ [a]).flatMap encode) (duplicate (key a)) := by
  obtain ⟨n, rfl⟩ := Nat.exists_eq_succ_of_ne_zero (Nat.ne_zero_of_lt hn)
  induction before generalizing seen n with
  | nil =>
    have ha := hread a List.mem_cons_self
    have hseen : seen.contains (key a) = true := List.contains_iff_mem.mpr hrepeat
    rw [List.nil_append, List.flatMap_singleton, ← List.append_nil (encode a)]
    refine ha.bind_fails ?_
    rw [if_pos hseen]
    exact fails_throw _
  | cons b before ih =>
    obtain ⟨hb, hread⟩ := List.forall_mem_cons.mp hread
    obtain ⟨hseen, hnew⟩ := List.forall_mem_cons.mp hnew
    obtain ⟨hkey, hkeys⟩ := List.nodup_cons.mp hkeys
    have hlt : before.length < n := Nat.lt_of_succ_lt_succ hn
    obtain ⟨m, rfl⟩ := Nat.exists_eq_succ_of_ne_zero (Nat.ne_zero_of_lt hlt)
    refine hb.bind_fails ?_
    rw [if_neg fun h => hseen (List.contains_iff_mem.mp h)]
    refine (ih hread hkeys ?_ ?_ m hlt).bind _
    · intro c hc hmem
      rcases List.mem_cons.mp hmem with he | hmem
      · exact hkey (he ▸ List.mem_map_of_mem hc)
      · exact hnew c hc hmem
    · simp only [List.map_cons, List.mem_append, List.mem_cons] at hrepeat ⊢
      tauto

theorem table_fails [BEq κ] [LawfulBEq κ] [Binary α] {P : α → Prop} (hentry : Binary.Canonical α P)
    {key : α → κ} (duplicate : κ → LoadError) (count part : Field) {entries : List α} {k : κ}
    (hlength : entries.length < UInt64.size) (hentries : ∀ a ∈ entries, P a)
    (hrepeat : FirstRepeat (entries.map key) k) :
    (do
      let count ← field (α := UInt64) count
      readDistinct (field part) key duplicate [] count.toNat).Fails
        (encodeTable Binary.encode entries) (duplicate k) := by
  obtain ⟨_, _, hsplit, hnodup, hmem⟩ := hrepeat
  obtain ⟨before, _, rfl, rfl, htail⟩ := List.map_eq_append_iff.mp hsplit
  obtain ⟨a, after, rfl, rfl, rfl⟩ := List.map_eq_cons_iff.mp htail
  have hread : ∀ b ∈ before ++ [a], (field part).Yields (Binary.encode b) b := by
    intro b hb
    have hmem : b ∈ before ++ a :: after := by
      rw [List.append_cons]
      exact List.mem_append_left after hb
    exact (hentry.field part).yields ⟨rfl, hentries b hmem⟩
  have hlt : before.length < (UInt64.ofNat (before ++ a :: after).length).toNat := by
    rw [UInt64.toNat_ofNat_of_lt' hlength]
    simp
  have hfails : (readDistinct _ key duplicate [] _).Fails _ (duplicate (key a)) :=
    readDistinct_fails hread hnodup (fun b _ => List.not_mem_nil) (List.mem_append_left [] hmem) hlt
  have hall := hfails.append (after.flatMap Binary.encode)
  rw [← List.flatMap_append, ← List.append_cons] at hall
  exact ((Binary.canonical_uint64.field count).yields ⟨rfl, trivial⟩).bind_fails hall

theorem readVersion_fails {version : Version} (h : Version.supported.major < version.major) :
    readVersion.Fails (Binary.encode version) (.incompatible ⟨version, Version.supported⟩) := by
  rw [← List.append_nil (Binary.encode version)]
  refine ((Binary.canonical_version.field .versionWord).yields ⟨rfl, trivial⟩).bind_fails ?_
  rw [Version.check, if_pos h]
  exact fails_throw _

theorem load_of_fails {bs : Bytes} {e : LoadError} (h : readParts.Fails bs e) (rest : Bytes) :
    load (bs ++ rest) = .error e := by
  obtain ⟨left, hrun⟩ := h rest
  rw [load, read_eq, run_bind, hrun]

variable {image : Image}

theorem readParts_fails_of_sections (hfits : image.Fits)
    (hmajor : image.version.major ≤ Version.supported.major) {name : String}
    (hrepeat : FirstRepeat (image.sections.map Section.name) name) :
    readParts.Fails (Binary.encode image.version ++ (Binary.encode image.debug
      ++ encodeTable Binary.encode image.sections)) (.duplicateSection name) := by
  refine (reads_version.yields ⟨rfl, hmajor⟩).bind_fails ?_
  refine (reads_debugLevel.yields rfl).bind_fails ?_
  exact (table_fails Binary.canonical_section .duplicateSection .sectionCount .sectionEntry
    hfits.sections hfits.names hrepeat).bind _

theorem readParts_fails_of_interrupts (hfits : image.Fits)
    (hmajor : image.version.major ≤ Version.supported.major)
    (hnames : (image.sections.map Section.name).Nodup) {id : UInt64}
    (hrepeat : FirstRepeat (image.interrupts.map Handler.id) id) :
    readParts.Fails (Binary.encode image.version ++ (Binary.encode image.debug
      ++ (encodeTable Binary.encode image.sections ++ encodeTable Binary.encode image.interrupts)))
      (.duplicateInterrupt id) := by
  refine (reads_version.yields ⟨rfl, hmajor⟩).bind_fails ?_
  refine (reads_debugLevel.yields rfl).bind_fails ?_
  refine (reads_sections.yields ⟨rfl, hfits.sections, hfits.names, hnames⟩).bind_fails ?_
  exact (table_fails Binary.canonical_handler .duplicateInterrupt .interruptCount .interruptEntry
    hfits.interrupts (fun _ _ => trivial) hrepeat).bind _

/-- The bytes of an image whose lengths fit are loaded as that image, with the warnings that its
version calls for, or the first part of it that a machine does not take is the error. -/
theorem load_encode_cases (hfits : image.Fits) :
    (image.version.major ≤ Version.supported.major →
      (image.sections.map Section.name).Nodup → (image.interrupts.map Handler.id).Nodup →
        load image.encode = .ok image ∧
          image.version.check Version.supported = .ok image.warnings) ∧
    (image.version.major ≤ Version.supported.major → ¬ (image.sections.map Section.name).Nodup →
      ∃ name, FirstRepeat (image.sections.map Section.name) name ∧
        load image.encode = .error (.duplicateSection name)) ∧
    (image.version.major ≤ Version.supported.major → (image.sections.map Section.name).Nodup →
      ¬ (image.interrupts.map Handler.id).Nodup →
        ∃ id, FirstRepeat (image.interrupts.map Handler.id) id ∧
          load image.encode = .error (.duplicateInterrupt id)) ∧
    (Version.supported.major < image.version.major →
      load image.encode = .error (.incompatible ⟨image.version, Version.supported⟩) ∧
        ∀ rest, load (Binary.encode image.version ++ rest) =
          .error (.incompatible ⟨image.version, Version.supported⟩)) := by
  refine ⟨?_, ?_, ?_, ?_⟩
  · intro hmajor hnames hids
    have hload := load_eq_ok_iff.mpr (spells_encode ⟨hmajor, hnames, hids⟩ hfits)
    refine ⟨hload, ?_⟩
    rw [Version.check, if_neg (UInt8.not_lt.mpr hmajor), warnings]
  · intro hmajor hnames
    obtain ⟨name, hrepeat⟩ := exists_firstRepeat hnames
    have hload := load_of_fails (readParts_fails_of_sections hfits hmajor hrepeat)
    refine ⟨name, hrepeat, ?_⟩
    simp only [encode, List.append_assoc] at hload ⊢
    exact hload _
  · intro hmajor hnames hids
    obtain ⟨id, hrepeat⟩ := exists_firstRepeat hids
    have hload := load_of_fails (readParts_fails_of_interrupts hfits hmajor hnames hrepeat)
    refine ⟨id, hrepeat, ?_⟩
    simp only [encode, List.append_assoc] at hload ⊢
    exact hload _
  · intro hmajor
    have hload := load_of_fails ((readVersion_fails hmajor).bind _)
    refine ⟨?_, hload⟩
    simp only [encode, List.append_assoc]
    exact hload _

/-- An image with one section and one handler, the same with a second section of that name and with a
second handler of that interrupt, and the same for a later machine. -/
theorem load_encode_cases_twice :
    let image : Image :=
      ⟨.supported, .minimal, [⟨0, "é"⟩], [⟨3, 1⟩], [.i8 (-1), .string "x"], 0, [.ret, .nop]⟩
    let sections : Image := { image with sections := [⟨0, "é"⟩, ⟨1, "é"⟩] }
    let interrupts : Image := { image with interrupts := [⟨3, 1⟩, ⟨3, 0⟩] }
    let later : Image := { image with version := .release 1 0 0 }
    (image.Fits ∧ load image.encode = .ok image) ∧
      (sections.Fits ∧ load sections.encode = .error (.duplicateSection "é")) ∧
      (interrupts.Fits ∧ load interrupts.encode = .error (.duplicateInterrupt 3)) ∧
      later.Fits ∧ load later.encode =
        .error (.incompatible ⟨.release 1 0 0, Version.supported⟩) := by
  intro image sections interrupts later
  have hfits : image.Fits := fits_of_length (by decide +kernel)
  have hsections : sections.Fits := fits_of_length (by decide +kernel)
  have hinterrupts : interrupts.Fits := fits_of_length (by decide +kernel)
  have hlater : later.Fits := fits_of_length (by decide +kernel)
  refine ⟨⟨hfits, ?_⟩, ⟨hsections, ?_⟩, ⟨hinterrupts, ?_⟩, hlater, ?_⟩
  · obtain ⟨hvalid, -⟩ := load_encode_cases hfits
    exact (hvalid (by decide) (by decide) (by decide)).1
  · obtain ⟨-, hrepeat, -⟩ := load_encode_cases hsections
    obtain ⟨name, ⟨before, after, hsplit, -, -⟩, hload⟩ := hrepeat (by decide) (by decide)
    have hname : name ∈ sections.sections.map Section.name :=
      List.mem_iff_append.mpr ⟨before, after, hsplit⟩
    obtain rfl : name = "é" := by simpa [sections] using hname
    exact hload
  · obtain ⟨-, -, hrepeat, -⟩ := load_encode_cases hinterrupts
    obtain ⟨id, ⟨before, after, hsplit, -, -⟩, hload⟩ :=
      hrepeat (by decide) (by decide) (by decide)
    have hid : id ∈ interrupts.interrupts.map Handler.id :=
      List.mem_iff_append.mpr ⟨before, after, hsplit⟩
    obtain rfl : id = 3 := by simpa [interrupts] using hid
    exact hload
  · obtain ⟨-, -, -, hnewer⟩ := load_encode_cases hlater
    exact (hnewer (by decide)).1

end RegisterMachine.Image
