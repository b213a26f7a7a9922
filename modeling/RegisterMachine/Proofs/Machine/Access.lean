import Mathlib
import RegisterMachine.Proofs.Machine.Handles

namespace RegisterMachine

namespace Memory

/-- The byte of a slot with an index. -/
def byte? (m : Memory) (id : UInt64) (k : Nat) : Option UInt8 :=
  (m.slot? id).bind fun s => s.bytes[k]?

/-- The slot is in use, and an access to it ends inside of it. -/
def fits (m : Memory) (id offset : UInt64) (w : Width) : Bool :=
  (m.slot? id).any fun s => offset.toNat + w.bytes ≤ s.size

/-- The bytes of a place are the digits of the value, and it has no others. -/
def Holds (m : Memory) (id offset : UInt64) (w : Width) (v : UInt64) : Prop :=
  v.toNat < 256 ^ w.bytes ∧ ∀ k < w.bytes, m.byte? id (offset.toNat + k) = some (w.digit v k)

/-- A value that is to be put somewhere. -/
structure Store where
  id : UInt64
  offset : UInt64
  w : Width
  v : UInt64

/-- The byte with an index in a slot is one of those that a store goes to. -/
def Store.reaches (a : Store) (id : UInt64) (k : Nat) : Bool :=
  a.id = id ∧ a.offset.toNat ≤ k ∧ k < a.offset.toNat + a.w.bytes

/-- The memory after a store, if it can be done. -/
def store (m : Memory) (a : Store) : Memory :=
  (m.write? a.id a.offset a.w a.v).getD m

/-- What a store puts into a byte, if it can be done and reaches it. -/
def put? (m : Memory) (id : UInt64) (k : Nat) (a : Store) : Option UInt8 :=
  if m.fits a.id a.offset a.w && a.reaches id k then some (a.w.digit a.v (k - a.offset.toNat)) else none

/-- What a byte is after some stores. -/
def latest? (m : Memory) (stores : List Store) (id : UInt64) (k : Nat) : Option UInt8 :=
  (stores.filterMap (m.put? id k)).getLast?.or (m.byte? id k)

/-- The second memory is the first one with the digits of a value in their place. -/
structure Stores (m : Memory) (a : Store) (m' : Memory) : Prop where
  handles : m'.slots.size = m.slots.size ∧ m'.free = m.free
  sizes : ∀ id, (m'.slot? id).map Slot.size = (m.slot? id).map Slot.size
  bytes : ∀ id k, m'.byte? id k =
    if a.reaches id k then some (a.w.digit a.v (k - a.offset.toNat)) else m.byte? id k

section

variable {m m' : Memory} {id offset v : UInt64} {w : Width}

theorem isSome_write? (m : Memory) (id offset : UInt64) (w : Width) (v : UInt64) :
    (m.write? id offset w v).isSome = m.fits id offset w := by
  rw [write?, fits]
  cases m.slot? id with
  | none => rfl
  | some s =>
    rw [Option.bind_some, Option.isSome_map, Option.any_some, Slot.write?]
    split
    next hfits => simp [hfits]
    next hfits => simp [hfits]

theorem isSome_read? (m : Memory) (id offset : UInt64) (w : Width) :
    (m.read? id offset w).isSome = m.fits id offset w := by
  rw [read?, fits]
  cases m.slot? id with
  | none => rfl
  | some s =>
    rw [Option.bind_some, Option.any_some, Slot.read?, Option.isSome_map, Slot.slice?]
    split
    next hfits => simp [hfits]
    next hfits => simp [hfits]

theorem read?_eq_some_iff : m.read? id offset w = some v ↔ m.Holds id offset w v := by
  cases hs : m.slot? id with
  | none =>
    have hbyte : ∀ k, m.byte? id k = none := fun k => by rw [byte?, hs, Option.bind_none]
    rw [read?, hs, Option.bind_none]
    refine iff_of_false (Option.some_ne_none v).symm fun h => ?_
    have hfirst := h.2 0 w.bytes_pos
    rw [hbyte] at hfirst
    cases hfirst
  | some s =>
    have hbyte : ∀ k, m.byte? id k = s.bytes[k]? := fun k => by rw [byte?, hs, Option.bind_some]
    rw [read?, hs, Option.bind_some, Slot.read?_eq_some_iff, Holds]
    simp only [hbyte]

theorem stores_of_write? {a : Store} (h : m.write? a.id a.offset a.w a.v = some m') : m.Stores a m' := by
  obtain ⟨s, s', hs, hs', rfl⟩ := write?_cases h
  obtain ⟨hsize, hbytes⟩ := Slot.bytes_of_write? hs'
  refine ⟨⟨Array.size_set! .., rfl⟩, fun id => ?_, fun id k => ?_⟩
  · rw [slot?_set hs]
    split
    next hid => rw [hid, hs, Option.map_some, Option.map_some, hsize]
    next => rfl
  · rw [byte?, byte?, slot?_set hs, Store.reaches]
    by_cases hid : id = a.id
    · subst hid
      rw [if_pos rfl, hs, Option.bind_some, Option.bind_some, hbytes]
      simp
    · rw [if_neg hid, if_neg (by simp [Ne.symm hid])]

theorem fits_of_stores {a : Store} (h : m.Stores a m') : m'.fits = m.fits := by
  have hfits : ∀ (m : Memory) id offset w, m.fits id offset w =
      ((m.slot? id).map Slot.size).any fun size => offset.toNat + w.bytes ≤ size := fun m id offset w => by
    rw [fits, Option.any_map]
  funext id offset w
  rw [hfits, hfits, h.sizes]

/-- A store that can be done is done, and one that cannot leaves all as it is. -/
theorem store_cases (m : Memory) (a : Store) :
    m.fits a.id a.offset a.w = true ∧ m.Stores a (m.store a) ∨
      m.fits a.id a.offset a.w = false ∧ m.store a = m := by
  rw [← isSome_write? m a.id a.offset a.w a.v, store]
  cases hwrite : m.write? a.id a.offset a.w a.v with
  | none => exact .inr ⟨rfl, rfl⟩
  | some m' => exact .inl ⟨rfl, stores_of_write? hwrite⟩

theorem fits_store (m : Memory) (a : Store) : (m.store a).fits = m.fits := by
  rcases store_cases m a with ⟨-, hstores⟩ | ⟨-, hsame⟩
  · exact fits_of_stores hstores
  · rw [hsame]

theorem byte?_store (m : Memory) (a : Store) (id : UInt64) (k : Nat) :
    (m.store a).byte? id k = (m.put? id k a).or (m.byte? id k) := by
  rw [put?]
  rcases store_cases m a with ⟨hfits, hstores⟩ | ⟨hfits, hsame⟩
  · rw [hstores.bytes, hfits, Bool.true_and]
    split <;> rfl
  · rw [hsame, hfits]
    rfl

/-- Each byte is what the last store that has reached it has put there. -/
theorem byte?_foldl_store (stores : List Store) (m : Memory) (id : UInt64) (k : Nat) :
    (stores.foldl store m).byte? id k = m.latest? stores id k := by
  induction stores generalizing m with
  | nil => rfl
  | cons a stores ih =>
    have hput : (m.store a).put? id k = m.put? id k := by
      funext b
      rw [put?, put?, fits_store]
    rw [List.foldl_cons, ih, latest?, latest?, hput, byte?_store, List.filterMap_cons]
    cases m.put? id k a with
    | none => rfl
    | some b => simp [List.getLast?_cons]

theorem fits_foldl_store (stores : List Store) (m : Memory) : (stores.foldl store m).fits = m.fits :=
  List.foldlRecOn (motive := fun m' => m'.fits = m.fits) stores store rfl
    fun m' h a _ => (fits_store m' a).trans h

end

end Memory

namespace Machine

section

variable {p : Program} {m : Machine} {ip : UInt64} {w : Width} {slot offset src dest : Register}

theorem exec_store (p : Program) (m : Machine) (ip : UInt64) (w : Width) (slot offset src : Register) :
    m.exec p ip (.store w slot offset src) =
      .ok ({ m with
        memory := m.memory.store ⟨m.registers.get slot, m.registers.get offset, w, m.registers.get src⟩
      }.setSuccess (m.memory.fits (m.registers.get slot) (m.registers.get offset) w)) := by
  show Except.ok (m.store w slot offset src) = _
  rw [← Memory.isSome_write? _ _ _ w (m.registers.get src), Memory.store]
  simp only [store]
  cases m.memory.write? (m.registers.get slot) (m.registers.get offset) w (m.registers.get src) <;> rfl

theorem exec_load_of_not_fits (h : m.memory.fits (m.registers.get slot) (m.registers.get offset) w = false) :
    m.exec p ip (.load w slot offset dest) = .ok (m.setSuccess false) := by
  rw [← Memory.isSome_read?, Option.isSome_eq_false_iff, Option.isNone_iff_eq_none] at h
  show Except.ok (m.load w slot offset dest) = _
  rw [load, h]

theorem get_setSuccess_op (m : Machine) (success : Bool) :
    (m.setSuccess success).registers.get .op = if success then 1 else 0 :=
  Registers.get_set_self m.registers .op _

theorem get_setSuccess {r : Register} (m : Machine) (success : Bool) (h : r ≠ .op) :
    (m.setSuccess success).registers.get r = m.registers.get r :=
  Registers.get_set_of_ne _ _ h

end

/-- Loads and stores work on single bytes. An access can be made exactly if its slot is in use and it ends
inside of it. Then a store puts the low bytes of its value into their place, and a load reads the number that
the bytes there stand for, whatever stores have put them there. The instructions tell in `op` whether their
access could be made; one that could not be made changes nothing else. -/
theorem accesses_bytewise (m : Machine) :
    (∀ id offset w v, (m.memory.write? id offset w v).isSome = m.memory.fits id offset w) ∧
    (∀ a memory, m.memory.write? a.id a.offset a.w a.v = some memory → m.memory.Stores a memory) ∧
    (∀ stores id offset w,
      let memory := stores.foldl Memory.store m.memory
      (memory.read? id offset w).isSome = m.memory.fits id offset w ∧
        ∀ v, memory.read? id offset w = some v ↔ v.toNat < 256 ^ w.bytes ∧
          ∀ k < w.bytes, m.memory.latest? stores id (offset.toNat + k) = some (w.digit v k)) ∧
    (∀ p ip w slot offset src,
      let a : Memory.Store := ⟨m.registers.get slot, m.registers.get offset, w, m.registers.get src⟩
      ∃ m', m.exec p ip (.store w slot offset src) = .ok m' ∧
        m' = { m with memory := m.memory.store a, registers := m'.registers } ∧
        m'.registers.get .op = (if m.memory.fits a.id a.offset w then 1 else 0) ∧
        (m.memory.fits a.id a.offset w = false → m'.memory = m.memory) ∧
        ∀ r, r ≠ .op → m'.registers.get r = m.registers.get r) ∧
    ∀ p ip w slot offset dest,
      let id := m.registers.get slot
      let start := m.registers.get offset
      ∃ m', m.exec p ip (.load w slot offset dest) = .ok m' ∧ m' = { m with registers := m'.registers } ∧
        m'.registers.get .op = (if m.memory.fits id start w then 1 else 0) ∧
        (∀ v, m.memory.read? id start w = some v → dest ≠ .op → m'.registers.get dest = v) ∧
        (m.memory.fits id start w = false → dest ≠ .op →
          m'.registers.get dest = m.registers.get dest) ∧
        ∀ r, r ≠ .op → r ≠ dest → m'.registers.get r = m.registers.get r := by
  refine ⟨m.memory.isSome_write?, fun a memory => Memory.stores_of_write?, fun stores id offset w => ?_,
    fun p ip w slot offset src => ?_, fun p ip w slot offset dest => ?_⟩
  · intro memory
    refine ⟨?_, fun v => ?_⟩
    · rw [Memory.isSome_read?, Memory.fits_foldl_store]
    · rw [Memory.read?_eq_some_iff, Memory.Holds]
      simp only [memory, Memory.byte?_foldl_store]
  · intro a
    refine ⟨_, exec_store p m ip w slot offset src, rfl, get_setSuccess_op .., fun hfits => ?_,
      fun r => get_setSuccess _ _⟩
    rcases m.memory.store_cases a with ⟨hcan, -⟩ | ⟨-, hsame⟩
    · exact absurd (hfits.symm.trans hcan) Bool.false_ne_true
    · exact hsame
  · intro id start
    cases hread : m.memory.read? id start w with
    | some v =>
      have hfits : m.memory.fits id start w = true := by rw [← Memory.isSome_read?, hread, Option.isSome_some]
      rw [hfits]
      refine ⟨_, exec_load hread, rfl, get_setSuccess_op .., ?_, nofun, fun r hop hdest => ?_⟩
      · rintro _ ⟨⟩ hdest
        rw [get_setSuccess _ _ hdest]
        exact Registers.get_set_self ..
      · rw [get_setSuccess _ _ hop]
        exact Registers.get_set_of_ne _ _ hdest
    | none =>
      have hfits : m.memory.fits id start w = false := by rw [← Memory.isSome_read?, hread, Option.isSome_none]
      rw [hfits]
      exact ⟨_, exec_load_of_not_fits hfits, rfl, get_setSuccess_op .., nofun,
        fun _ hdest => get_setSuccess _ _ hdest, fun r hop _ => get_setSuccess _ _ hop⟩

/-- Stores that overlap, and some that cannot be made; a load whose result goes to `op`. -/
theorem accesses_bytewise_overlap :
    let m : Machine :=
      { registers := Registers.initial, stack := Stack.empty 4,
        memory := ⟨#[some ⟨#[1, 2, 3, 4, 5, 6]⟩], []⟩, callStack := [], interruptsEnabled := false,
        pending := [], alive := false, fault := none, stats := {}, events := [] }
    let p : Program := { instructions := #[], handlers := [], debug := .none, syscalls := #[] }
    let stores : List Memory.Store := [⟨0, 0, .double, 0xDEADBEEF⟩, ⟨0, 3, .word, 0x51234⟩,
      ⟨0, 0xFFFFFFFFFFFFFFFF, .quad, 7⟩, ⟨0, 5, .word, 7⟩, ⟨1, 0, .half, 7⟩]
    (stores.foldl Memory.store m.memory).read? 0 1 .double = some 0xADBE1234 ∧
      ∃ m', m.exec p 0 (.load .word .x0 .x1 .op) = .ok m' ∧ m.memory.read? 0 1 .word = some 0x203 ∧
        m'.registers.get .op = 1 := by
  intro m p stores
  obtain ⟨-, -, hreads, -, hload⟩ := accesses_bytewise m
  obtain ⟨m', hexec, -, hop, -⟩ := hload p 0 .word .x0 .x1 .op
  refine ⟨(hreads stores 0 1 .double).2 _ |>.mpr ⟨by decide, by decide +kernel⟩, m', hexec, ?_, ?_⟩
  · exact (hreads [] 0 1 .word).2 _ |>.mpr ⟨by decide, by decide +kernel⟩
  · exact hop.trans (by decide +kernel)

end Machine

end RegisterMachine
