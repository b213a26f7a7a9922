import Mathlib
import RegisterMachine.Proofs.Checked.Assembly
import RegisterMachine.Proofs.Checked.Exec
import RegisterMachine.Proofs.Checked.Image
import RegisterMachine.Proofs.Image.Accepted
import RegisterMachine.Proofs.Machine.Effects
import RegisterMachine.Proofs.Machine.Memory
import RegisterMachine.Proofs.Machine.Runs

namespace RegisterMachine

namespace Image

variable {image : Image} {bytes : Bytes}

/-- Neither the bytes of the constants nor the instructions are as many as the bytes of the image. -/
theorem length_of_load (h : load bytes = .ok image) :
    image.pool.length + 45 ≤ bytes.length ∧ image.instructions.length + 45 ≤ bytes.length := by
  have hlength := (load_eq_ok_iff.mp h).length_eq
  have hencode := length_encode image
  have hpool := length_pool_add_le image
  have hcode : image.instructions.length ≤ image.code.length :=
    length_le_length_flatMap fun i => List.cons_ne_nil _ _
  exact ⟨by omega, by omega⟩

end Image

namespace Machine

variable {p : Program} {m m' : Machine} {ip : UInt64} {i : Instruction} {t : List Transfer}

theorem intact_exec (hp : p.syscalls = Syscall.builtin) (h : m.memory.Intact)
    (hexec : m.exec p ip i = .ok m') : m'.memory.Intact := by
  cases hchanges : i.changesMemory with
  | false => exact (changes_of_exec hp hexec).memory hchanges ▸ h
  | true =>
    cases i with
    | alloc dest size =>
      obtain rfl := Except.ok.inj hexec
      rw [alloc]
      split
      next halloc => exact h.alloc halloc
      next => exact h
    | free slot =>
      obtain rfl := Except.ok.inj hexec
      rw [free]
      split
      next hfree => exact h.free hfree
      next => exact h
    | store w slot offset src =>
      obtain rfl := Except.ok.inj hexec
      simp only [store]
      split
      next hwrite => exact h.write hwrite
      next => exact h
    | _ => cases hchanges

theorem intact_advance (hp : p.syscalls = Syscall.builtin) (h : m.memory.Intact) :
    (m.advance p).memory.Intact := by
  cases hfetch : p.fetch? m.registers.ip with
  | none =>
    rw [advance_of_outside hfetch]
    exact h
  | some i =>
    cases hexec : m.fetched.exec p m.registers.ip i with
    | error f =>
      rw [advance_of_fails hfetch (exec_eq_error_iff.mp hexec)]
      exact h
    | ok m' =>
      rw [advance_of_ok hfetch hexec]
      exact intact_exec (m := m.fetched) hp h hexec

theorem intact_step (hp : p.syscalls = Syscall.builtin) (h : m.memory.Intact) (hstep : Step p m t m') :
    m'.memory.Intact := by
  cases hstep with
  | start | request | notice => exact h
  | @answer r rest _ _ =>
    rw [answer]
    split
    next => split <;> exact h
    next => exact h
  | advance _ => exact intact_advance hp h

theorem intact_reaches (hp : p.syscalls = Syscall.builtin) (h : m.memory.Intact)
    (hreaches : Reaches p m t m') : m'.memory.Intact := by
  induction hreaches with
  | refl => exact h
  | tail _ hstep ih => exact intact_step hp ih hstep

theorem intact_ofImage {image : Image} (stackSize : Nat) (h : image.pool.length + 1 < Slot.limit) :
    (ofImage image stackSize).memory.Intact := by
  rw [ofImage]
  dsimp only
  split
  next => exact .empty
  next =>
    refine Memory.Intact.empty.insert ?_
    rw [Slot.size, ← Array.length_toList, Slot.toList_ofBytes, List.length_append, List.length_replicate]
    omega

end Machine

namespace Checked

/-- No operation of the assembler is undefined, whatever the source is, and none where an error is shown or
an image is written; none of the loader, whatever the bytes are; and none of a machine that runs a loaded
image, at any point of any history and whatever the outside world grants. The bytes of a source, of an image,
and on a stack are as many as fit into memory. -/
theorem operations_defined :
    (∀ source : String, source.utf8ByteSize < Slot.limit →
      assemble source = some (RegisterMachine.Assembly.assemble source) ∧
      ∀ (file : String) (line : Nat) (message : String), diagnostic file source line message =
        some (RegisterMachine.Assembly.diagnostic file source line message)) ∧
    (∀ image : RegisterMachine.Image, image.encode.length < Slot.limit →
      Image.size image = some image.encode.length) ∧
    ∀ bytes : RegisterMachine.Bytes, bytes.length < Slot.limit →
      Image.load bytes = some (RegisterMachine.Image.load bytes) ∧
      ∀ (image : RegisterMachine.Image) (environment : Environment) (stackSize : Nat),
        RegisterMachine.Image.load bytes = .ok image →
        let p := Program.ofImage image RegisterMachine.Syscall.builtin environment
        let start := RegisterMachine.Machine.ofImage image stackSize
        Machine.ofImage image stackSize = some start ∧
        ∀ (t : List Transfer) (m : RegisterMachine.Machine), m.stack.size < Slot.limit →
          RegisterMachine.Machine.Reaches p start t m →
          Machine.advance p m.resetConstants = some (m.resetConstants.advance p) ∧
          Memory.live m.memory = some m.memory.live := by
  refine ⟨fun source hsource => ⟨assemble_eq hsource, fun file => diagnostic_eq file source⟩,
    fun _ => Image.size_eq, fun bytes hbytes => ⟨Image.load_eq hbytes, ?_⟩⟩
  intro image environment stackSize hload p start
  obtain ⟨hpool, hcode⟩ := RegisterMachine.Image.length_of_load hload
  refine ⟨Machine.ofImage_eq image stackSize, fun t m hstack hreaches => ?_⟩
  have hsize : p.instructions.size < Slot.limit := by
    rw [Program.size_ofImage]
    omega
  have hmemory : m.memory.Intact :=
    RegisterMachine.Machine.intact_reaches rfl
      (RegisterMachine.Machine.intact_ofImage stackSize (by omega)) hreaches
  exact ⟨Machine.advance_eq rfl hsize hstack hmemory, Memory.live_eq hmemory.accounted⟩

/-- A constant is to be printed, but nobody takes it, and then there are fewer bytes on the stack than are to
be popped. -/
theorem operations_defined_short :
    let image : RegisterMachine.Image :=
      { version := Version.supported, debug := .none, sections := [], interrupts := [],
        constants := [.string "hi"], entry := 0,
        instructions := [.push .word .x1, .syscall 1, .pop .double .fp] }
    let environment := fun _ _ => .refused 0
    let p := Program.ofImage image RegisterMachine.Syscall.builtin environment
    let m := RegisterMachine.Machine.runWith p [] 2 (RegisterMachine.Machine.ofImage image 16).start
    assemble "exit" = some (RegisterMachine.Assembly.assemble "exit") ∧
      Image.size image = some 69 ∧ Image.load image.encode = some (.ok image) ∧ m.stack.size = 2 ∧
      (Machine.advance p m.resetConstants).map (·.fault) = some (some (.stackShort 4 2)) ∧
      Memory.live m.memory = some 1 := by
  intro image environment p m
  have hbytes : image.encode.length < Slot.limit := by decide +kernel
  have hload : RegisterMachine.Image.load image.encode = .ok image := by decide +kernel
  have hsize : m.stack.size = 2 := by decide +kernel
  have hfits : m.stack.size < Slot.limit := by
    rw [hsize]
    decide
  obtain ⟨hloads, hruns⟩ := operations_defined.2.2 image.encode hbytes
  obtain ⟨-, hhistories⟩ := hruns image environment 16 hload
  obtain ⟨hadvance, hlive⟩ := hhistories _ m hfits
    ((RegisterMachine.Machine.Reaches.single (.start _)).trans
      (RegisterMachine.Machine.reaches_runWith p [] 2 _))
  have hfault : (m.resetConstants.advance p).fault = some (.stackShort 4 2) := by decide +kernel
  have hone : m.memory.live = 1 := by decide +kernel
  have hlength : image.encode.length = 69 := by decide +kernel
  obtain ⟨hassembles, -⟩ := operations_defined.1 "exit" (by decide +kernel)
  have hcount := operations_defined.2.1 image hbytes
  refine ⟨hassembles, hlength ▸ hcount, hload ▸ hloads, hsize, ?_, hone ▸ hlive⟩
  rw [hadvance, Option.map_some, hfault]

end Checked

end RegisterMachine
