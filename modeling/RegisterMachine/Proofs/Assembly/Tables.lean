import Mathlib
import RegisterMachine.Assembly.Assemble

namespace RegisterMachine.Assembly

/-- A section stands before another one, or they are the same. -/
def sectionLE (a b : Image.Section) : Bool :=
  a.address < b.address || (a.address == b.address && a.name ≤ b.name)

theorem sectionLE_iff {a b : Image.Section} : sectionLE a b ↔
    a.address.toNat < b.address.toNat ∨ a.address.toNat = b.address.toNat ∧ a.name ≤ b.name := by
  simp [sectionLE, UInt64.lt_iff_toNat_lt, ← UInt64.toNat_inj]

theorem sectionLE_trans (a b c : Image.Section) (hab : sectionLE a b) (hbc : sectionLE b c) :
    sectionLE a c := by
  rw [sectionLE_iff] at hab hbc ⊢
  rcases hab with hab | ⟨hab, hab'⟩
  · exact .inl (by omega)
  · rcases hbc with hbc | ⟨hbc, hbc'⟩
    · exact .inl (by omega)
    · exact .inr ⟨hab.trans hbc, String.le_trans hab' hbc'⟩

theorem sectionLE_total (a b : Image.Section) : (sectionLE a b || sectionLE b a) = true := by
  rw [Bool.or_eq_true, sectionLE_iff, sectionLE_iff]
  rcases Nat.lt_trichotomy a.address.toNat b.address.toNat with h | h | h
  · exact .inl (.inl h)
  · rcases String.le_total a.name b.name with hname | hname
    · exact .inl (.inr ⟨h, hname⟩)
    · exact .inr (.inr ⟨h.symm, hname⟩)
  · exact .inr (.inl h)

theorem sectionLE_antisymm {a b : Image.Section} (hab : sectionLE a b) (hba : sectionLE b a) :
    a = b := by
  rw [sectionLE_iff] at hab hba
  have haddress : a.address.toNat = b.address.toNat := by omega
  have hname : a.name = b.name := by
    rcases hab with hab | ⟨-, hab⟩
    · omega
    · rcases hba with hba | ⟨-, hba⟩
      · omega
      · exact String.le_antisymm hab hba
  obtain ⟨address, name⟩ := a
  obtain ⟨address', name'⟩ := b
  obtain rfl : address = address' := UInt64.toNat_inj.mp haddress
  obtain rfl : name = name' := hname
  rfl

theorem sections_perm (labels : List Label) : (sections labels).Perm
    (labels.map fun l => ⟨UInt64.ofNat l.index, l.name⟩) :=
  List.mergeSort_perm _ _

theorem sections_ordered (labels : List Label) :
    (sections labels).Pairwise fun a b => sectionLE a b :=
  List.pairwise_mergeSort sectionLE_trans sectionLE_total _

/-- In whatever order the labels are gone through, the sections come out the same. -/
theorem sections_eq_of_perm {labels labels' : List Label} (h : labels.Perm labels') :
    sections labels = sections labels' := by
  have hperm : (sections labels).Perm (sections labels') :=
    (sections_perm labels).trans ((h.map _).trans (sections_perm labels').symm)
  exact hperm.eq_of_pairwise (fun a b _ _ hab hba => sectionLE_antisymm hab hba)
    (sections_ordered labels) (sections_ordered labels')

theorem sections_names (labels : List Label) :
    ((sections labels).map Image.Section.name).Perm (labels.map Label.name) := by
  have h := (sections_perm labels).map Image.Section.name
  rwa [List.map_map] at h

/-- Sections with different names are strictly ordered. -/
theorem sections_strict {labels : List Label} (h : (labels.map Label.name).Nodup) :
    (sections labels).Pairwise fun a b => a.address < b.address ∨
      a.address = b.address ∧ a.name < b.name := by
  have hnames := (sections_names labels).nodup_iff.mpr h
  refine (List.Pairwise.and (sections_ordered labels) (List.pairwise_map.mp hnames)).imp ?_
  rintro a b ⟨hab, hne⟩
  rw [sectionLE_iff] at hab
  rcases hab with hab | ⟨hab, hname⟩
  · exact .inl (UInt64.lt_iff_toNat_lt.mpr hab)
  · refine .inr ⟨UInt64.toNat_inj.mp hab, String.not_le.mp fun hba => ?_⟩
    exact hne (String.le_antisymm hname hba)

theorem handlers_perm (hs : List (UInt64 × Nat)) :
    (handlers hs).Perm (hs.map fun h => ⟨h.1, UInt64.ofNat h.2⟩) :=
  List.mergeSort_perm _ _

theorem handlers_ids (hs : List (UInt64 × Nat)) :
    ((handlers hs).map Image.Handler.id).Perm (hs.map Prod.fst) := by
  have h := (handlers_perm hs).map Image.Handler.id
  rwa [List.map_map] at h

/-- Handlers of different interrupts are strictly ordered. -/
theorem handlers_strict {hs : List (UInt64 × Nat)} (h : (hs.map Prod.fst).Nodup) :
    (handlers hs).Pairwise fun a b => a.id < b.id := by
  have hids := (handlers_ids hs).nodup_iff.mpr h
  have hordered : (handlers hs).Pairwise fun a b => decide (a.id ≤ b.id) = true := by
    refine List.pairwise_mergeSort (fun a b c hab hbc => ?_) (fun a b => ?_) _
    · simp only [decide_eq_true_eq] at hab hbc ⊢
      exact UInt64.le_trans hab hbc
    · simp only [Bool.or_eq_true, decide_eq_true_eq]
      exact UInt64.le_total a.id b.id
  refine (List.Pairwise.and hordered (List.pairwise_map.mp hids)).imp ?_
  rintro a b ⟨hab, hne⟩
  exact UInt64.lt_of_le_of_ne (of_decide_eq_true hab) hne

end RegisterMachine.Assembly
