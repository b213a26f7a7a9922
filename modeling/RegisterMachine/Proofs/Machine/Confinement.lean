import Mathlib
import RegisterMachine.Proofs.Assembly.Image
import RegisterMachine.Proofs.Machine.History

namespace RegisterMachine

/-- No address in the image lies behind the end of the code. -/
structure Image.IsClosed (i : Image) : Prop where
  entry : i.entry.toNat ≤ i.instructions.length
  interrupts : ∀ h ∈ i.interrupts, h.address.toNat ≤ i.instructions.length
  targets : ∀ j ∈ i.instructions, ∀ target, .target target ∈ j.operands →
    target.toNat ≤ i.instructions.length

/-- No handler, target or destination leads behind the end of the code. -/
structure Program.IsClosed (p : Program) : Prop where
  handlers : ∀ id address, p.handler? id = some address → address.toNat ≤ p.instructions.size
  targets : ∀ ip i, p.fetch? ip = some i → ∀ target, .target target ∈ i.operands →
    target.toNat ≤ p.instructions.size
  destinations : ∀ ip i, p.fetch? ip = some i → i.destination? ≠ some .ip

namespace Program

variable {p : Program} {ip : UInt64}

theorem mem_of_fetch? {i : Image} {syscalls : Array Syscall} {environment : Environment} {j : Instruction}
    (h : (ofImage i syscalls environment).fetch? ip = some j) : j ∈ i.instructions := by
  rw [fetch?, ofImage, List.getElem?_toArray] at h
  exact List.mem_of_getElem? h

theorem size_ofImage (i : Image) (syscalls : Array Syscall) (environment : Environment) :
    (ofImage i syscalls environment).instructions.size = i.instructions.length :=
  List.size_toArray

theorem fetch?_eq_none_iff : p.fetch? ip = none ↔ p.instructions.size ≤ ip.toNat :=
  Array.getElem?_eq_none_iff

theorem lt_of_fetch? {i : Instruction} (h : p.fetch? ip = some i) : ip.toNat < p.instructions.size :=
  (Array.getElem?_eq_some_iff.mp h).1

theorem isClosed_ofImage {i : Image} (syscalls : Array Syscall) (environment : Environment)
    (hi : i.IsClosed) (hdest : ∀ j ∈ i.instructions, j.destination? ≠ some .ip) :
    (ofImage i syscalls environment).IsClosed := by
  refine ⟨fun id address h => ?_, fun ip j h target htarget => ?_, fun ip j h => ?_⟩
  · obtain ⟨handler, hfind, rfl⟩ := Option.map_eq_some_iff.mp h
    rw [size_ofImage]
    exact hi.interrupts handler (List.mem_reverse.mp (List.mem_of_find?_eq_some hfind))
  · rw [size_ofImage]
    exact hi.targets j (mem_of_fetch? h) target htarget
  · exact hdest j (mem_of_fetch? h)

end Program

namespace Machine

/-- Wherever the machine may go on lies inside the code or right behind it, and it is right behind it that
the machine ever found no instruction. -/
structure Confined (size : Nat) (m : Machine) : Prop where
  ip : m.registers.ip.toNat ≤ size
  callStack : ∀ address ∈ m.callStack, address.toNat ≤ size
  fault : ∀ ip count, m.fault = some (.noInstruction ip count) → ip.toNat = size ∧ count = size
  kills : ∀ ip count index, .killed (.noInstruction ip count) index ∈ m.kills →
    ip.toNat = size ∧ count = size ∧ index = ip

namespace Confined

variable {p : Program} {m m' : Machine} {t : List Transfer} {size : Nat}

theorem of_same (h : Confined size m) (hip : m'.registers.ip.toNat ≤ size)
    (hstack : ∀ address ∈ m'.callStack, address.toNat ≤ size) (hfault : m'.fault = m.fault)
    (hkills : m'.kills = m.kills) : Confined size m' :=
  ⟨hip, hstack, hfault ▸ h.fault, hkills ▸ h.kills⟩

/-- A machine that was stopped for another reason than a missing instruction. -/
theorem kill {index : UInt64} {f : Fault} (h : Confined size m)
    (hf : ∀ ip count, f = .noInstruction ip count → ip.toNat = size ∧ count = size ∧ index = ip) :
    Confined size (m.kill index f) := by
  refine ⟨h.ip, h.callStack, fun ip count hfault => ?_, fun ip count index' hmem => ?_⟩
  · obtain ⟨hip, hcount, -⟩ := hf ip count (Option.some.inj hfault)
    exact ⟨hip, hcount⟩
  · rw [kills_kill] at hmem
    rcases List.mem_cons.mp hmem with heq | hmem
    · obtain ⟨hkind, rfl⟩ := Event.killed.inj heq
      exact hf ip count hkind.symm
    · exact h.kills ip count index' hmem

theorem answer (hp : p.IsClosed) (h : Confined p.instructions.size m) (r : Request) :
    Confined p.instructions.size (m.answer p r) := by
  cases hadmission : m.admission p r.id with
  | rejected =>
    rw [answer_of_rejected hadmission]
    exact h.of_same h.ip h.callStack rfl rfl
  | unhandled =>
    rw [answer_of_unhandled hadmission]
    exact h.of_same h.ip h.callStack rfl rfl
  | entered =>
    obtain ⟨address, hhandler, hanswer⟩ := answer_of_entered hadmission
    rw [hanswer]
    exact h.of_same (hp.handlers r.id address hhandler) (List.forall_mem_cons.mpr ⟨h.ip, h.callStack⟩)
      rfl rfl

theorem fetched {i : Instruction} (h : Confined p.instructions.size m)
    (hfetch : p.fetch? m.registers.ip = some i) : Confined p.instructions.size m.fetched := by
  have hlt := Program.lt_of_fetch? hfetch
  have hnext : (m.registers.ip + 1).toNat ≤ m.registers.ip.toNat + 1 := by
    rw [UInt64.toNat_add]
    exact Nat.mod_le _ _
  exact h.of_same (Nat.le_trans hnext hlt) h.callStack rfl rfl

theorem advance (hp : p.IsClosed) (h : Confined p.instructions.size m) :
    Confined p.instructions.size (m.advance p) := by
  rcases advance_cases p m with hnone | ⟨i, f, hfetch, hfails⟩ | ⟨i, hfetch, hcarried⟩
  · rw [advance_of_outside hnone]
    refine h.kill fun ip count hkind => ?_
    obtain ⟨rfl, rfl⟩ := Fault.noInstruction.inj hkind
    exact ⟨Nat.le_antisymm h.ip (Program.fetch?_eq_none_iff.mp hnone), rfl, rfl⟩
  · rw [advance_of_fails hfetch hfails]
    refine (h.fetched hfetch).kill fun ip count hkind => ?_
    subst hkind
    cases hfails
  · have hnext := h.fetched hfetch
    obtain ⟨hflows, hfault, hkills⟩ := hcarried
    cases hflows with
    | goes _ _ hstack hip =>
      refine hnext.of_same ?_ (hstack ▸ hnext.callStack) hfault hkills
      rcases hip with hip | htarget | hdest
      · exact hip ▸ hnext.ip
      · exact hp.targets _ i hfetch _ htarget
      · exact absurd hdest (hp.destinations _ i hfetch)
    | calls hi hstack _ =>
      refine hnext.of_same ?_ ?_ hfault hkills
      · refine hp.targets _ i hfetch _ ?_
        rw [hi]
        exact List.mem_singleton.mpr rfl
      · rw [hstack]
        exact List.forall_mem_cons.mpr ⟨hnext.ip, hnext.callStack⟩
    | returns _ hstack _ =>
      have hboth := hnext.callStack
      rw [hstack, List.forall_mem_cons] at hboth
      exact hnext.of_same hboth.1 hboth.2 hfault hkills

theorem step (hp : p.IsClosed) (h : Confined p.instructions.size m) (hstep : Step p m t m') :
    Confined p.instructions.size m' := by
  cases hstep with
  | start | request => exact h.of_same h.ip h.callStack rfl rfl
  | @answer r rest _ _ =>
    have hrest : Confined p.instructions.size { m with pending := rest } :=
      h.of_same h.ip h.callStack rfl rfl
    exact hrest.answer hp r
  | advance _ => exact advance hp (h.of_same h.ip h.callStack rfl rfl)
  | notice => exact ⟨h.ip, h.callStack, h.fault, fun _ _ _ hmem => nomatch hmem⟩

theorem reaches (hp : p.IsClosed) (h : Confined p.instructions.size m) (hreaches : Reaches p m t m') :
    Confined p.instructions.size m' := by
  induction hreaches with
  | refl => exact h
  | tail _ hstep ih => exact ih.step hp hstep

theorem ofImage {i : Image} (stackSize : Nat) (hi : i.IsClosed) :
    Confined i.instructions.length (ofImage i stackSize) where
  ip := hi.entry
  callStack := fun _ hmem => nomatch hmem
  fault := fun _ _ hfault => nomatch hfault
  kills := fun _ _ _ hmem => nomatch hmem

end Confined

end Machine

namespace Assembly

variable {p : Source} {i : Image}

theorem Source.Builds.target_le (h : p.Builds i.instructions) {j : Instruction}
    (hj : j ∈ i.instructions) {target : UInt64} (htarget : .target target ∈ j.operands) :
    target.toNat ≤ i.instructions.length := by
  obtain ⟨l, -, hoperands⟩ := exists_forall₂_iff.mp ⟨_, h.flip⟩ j hj
  obtain ⟨token, hresolves⟩ := exists_forall₂_iff.mp ⟨_, hoperands.flip⟩ _ htarget
  cases hresolves with
  | @target name index hat =>
    have hle := hat.index_le
    rw [h.length_eq] at hle
    exact Nat.le_trans (Nat.mod_le index _) hle

/-- An assembled image leads nowhere behind the end of its code. -/
theorem isClosed_assembled {source : String} (h : (assemble source).image? = some i) : i.IsClosed := by
  obtain ⟨-, hlines⟩ := assemble_image?_eq_some_iff.mp h
  obtain ⟨p, index, hanalysis, hbuilds, hi⟩ := assembleLines_image?_cases hlines
  have hindex : ∀ l ∈ p.labels, (UInt64.ofNat l.index).toNat ≤ i.instructions.length := fun l hl => by
    have hle := Source.index_le hl
    rw [hbuilds.length_eq] at hle
    exact Nat.le_trans (Nat.mod_le l.index _) hle
  refine ⟨?_, ?_, fun j hj target => hbuilds.target_le hj⟩
  · rw [← hi]
    exact hindex ⟨p.entry, index⟩ hanalysis.labelAt.mem_labels
  · have hinterrupts : i.interrupts = handlers (p.labels.filterMap Label.handler?) := by
      rw [← hi, ← hanalysis.handlers]
      rfl
    intro handler hhandler
    rw [hinterrupts, (handlers_perm _).mem_iff] at hhandler
    obtain ⟨_, hentry, rfl⟩ := List.mem_map.mp hhandler
    obtain ⟨l, hl, hl'⟩ := List.mem_filterMap.mp hentry
    obtain ⟨id, -, rfl⟩ := Option.map_eq_some_iff.mp hl'
    exact hindex l hl

end Assembly

namespace Machine

/-- In any history of an image that leads nowhere behind its code and never writes to the instruction
pointer, the machine goes on inside the code or stops right behind it, and so it does wherever it is to
return to. Every assembled image leads nowhere behind its code. -/
theorem control_confined :
    (∀ (i : Image) (syscalls : Array Syscall) (environment : Environment) (stackSize : Nat)
      (t : List Transfer) (m : Machine),
      i.IsClosed → (∀ j ∈ i.instructions, j.destination? ≠ some .ip) →
      Reaches (Program.ofImage i syscalls environment) (ofImage i stackSize) t m →
      Confined i.instructions.length m ∧
        ∀ j, (Program.ofImage i syscalls environment).fetch? m.registers.ip = some j →
          m.registers.ip.toNat < i.instructions.length) ∧
    ∀ (source : String) (i : Image), (Assembly.assemble source).image? = some i → i.IsClosed := by
  refine ⟨fun i syscalls environment stackSize t m hi hdest h => ?_,
    fun source i => Assembly.isClosed_assembled⟩
  have hsize := Program.size_ofImage i syscalls environment
  have hconfined := Confined.ofImage stackSize hi
  rw [← hsize] at hconfined ⊢
  exact ⟨hconfined.reaches (Program.isClosed_ofImage syscalls environment hi hdest) h,
    fun j hfetch => Program.lt_of_fetch? hfetch⟩

/-- A program that runs off its end inside of a handler, and does so again in a second run after another
interrupt that came when there was no instruction to go on with. -/
theorem control_confined_twice :
    let source := ".init interrupt_3\n.code\ninterrupt_3:\neirq\nblt i1, i2, interrupt_3\nnop"
    let i : Image :=
      { version := Version.supported, debug := .none, sections := [⟨0, "interrupt_3"⟩],
        interrupts := [⟨3, 0⟩], constants := [], entry := 0,
        instructions := [.enableInterrupts, .branch .less (.int 1) (.int 2) 0, .nop] }
    let p := Program.ofImage i Syscall.builtin
    let m := runWith p [[], [⟨3, none⟩]] 5 (ofImage i 16).start
    let m' := runWith p [[⟨3, none⟩]] 4 m.start
    (Assembly.assemble source).image? = some i ∧ i.IsClosed ∧
      (∀ j ∈ i.instructions, j.destination? ≠ some .ip) ∧ m.fault = some (.noInstruction 3 3) ∧
      m.callStack = [1] ∧ m'.alive = false ∧ m'.callStack = [3, 1] ∧
      (∃ t, Reaches p (ofImage i 16) t m') ∧ Confined 3 m' := by
  intro source i p m m'
  have himage : (Assembly.assemble source).image? = some i := by decide +kernel
  have hclosed : i.IsClosed := control_confined.2 source i himage
  have hdest : ∀ j ∈ i.instructions, j.destination? ≠ some .ip := by decide
  have hfirst := reaches_runWith p [[], [⟨3, none⟩]] 5 (ofImage i 16).start
  have hsecond := reaches_runWith p [[⟨3, none⟩]] 4 m.start
  have hreaches := ((Reaches.single (.start _)).trans hfirst).trans
    ((Reaches.single (.start m)).trans hsecond)
  exact ⟨himage, hclosed, hdest, by decide +kernel, by decide +kernel, by decide +kernel,
    by decide +kernel, ⟨_, hreaches⟩,
    (control_confined.1 i Syscall.builtin _ 16 _ m' hclosed hdest hreaches).1⟩

end Machine

end RegisterMachine
