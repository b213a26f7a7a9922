import Mathlib
import RegisterMachine.Proofs.Machine.Memory

namespace RegisterMachine

namespace Slot

/-- Where there are zeros, zero is read. -/
theorem read?_eq_zero {s : Slot} {offset : UInt64} {w : Width}
    (h : ∀ k, offset.toNat ≤ k → k < offset.toNat + w.bytes → s.bytes[k]? = some 0) :
    s.read? offset w = some 0 := by
  refine read?_eq_some_iff.mpr ⟨Nat.pow_pos (by decide), fun k hk => ?_⟩
  have hzero : w.digit 0 k = 0 := by
    rw [Width.digit, UInt64.toNat_zero, Nat.zero_div]
    rfl
  rw [hzero, h _ (Nat.le_add_right _ _) (by omega)]

end Slot

namespace Memory

/-- What can be asked of a memory that changes it. -/
inductive Call where
  | alloc (size : UInt64)
  | insert (s : Slot)
  | free (id : UInt64)
  | write (id offset : UInt64) (w : Width) (v : UInt64)
deriving DecidableEq

inductive Answer where
  /-- There is a new slot with this handle. -/
  | issued (id : UInt64)
  | done
  | refused
deriving DecidableEq

/-- The answer to a call, and the memory after it, where these numbers of bytes can be reserved. -/
def respond (m : Memory) (reserves : Nat → Bool) : Call → Answer × Memory
  | .alloc size => (m.alloc? size reserves).elim (.refused, m) fun (id, m) => (.issued id, m)
  | .insert s => (.issued (m.insert s).1, (m.insert s).2)
  | .free id => (m.free? id).elim (.refused, m) (.done, ·)
  | .write id offset w v => (m.write? id offset w v).elim (.refused, m) (.done, ·)

/-- A memory, and all calls that it has answered. -/
structure Journal where
  entries : List (Call × Answer)
  memory : Memory

namespace Journal

/-- The answer to the next call, and the memory after it. An allocator says of every call how many bytes can
be reserved in it. -/
def respond (allocator : Nat → Nat → Bool) (j : Journal) (c : Call) : Answer × Memory :=
  j.memory.respond (allocator j.entries.length) c

def call (allocator : Nat → Nat → Bool) (j : Journal) (c : Call) : Journal :=
  ⟨j.entries ++ [(c, (j.respond allocator c).1)], (j.respond allocator c).2⟩

/-- The journal of a memory that was empty before these calls. -/
def ofCalls (allocator : Nat → Nat → Bool) (calls : List Call) : Journal :=
  calls.foldl (call allocator) ⟨[], .empty⟩

theorem ofCalls_concat (allocator : Nat → Nat → Bool) (calls : List Call) (c : Call) :
    ofCalls allocator (calls ++ [c]) = (ofCalls allocator calls).call allocator c := by
  rw [ofCalls, List.foldl_append]
  rfl

end Journal

/-- The handle that a call has brought. -/
def issued? : Call × Answer → Option UInt64
  | (_, .issued id) => some id
  | _ => none

/-- The handle that a call has given back. -/
def released? : Call × Answer → Option UInt64
  | (.free id, .done) => some id
  | _ => none

/-- The entry tells of a write to a byte of the slot. -/
def WritesAt (id : UInt64) (k : Nat) (e : Call × Answer) : Prop :=
  ∃ offset w v, e = (.write id offset w v, .done) ∧ offset.toNat ≤ k ∧ k < offset.toNat + w.bytes

/-- The handles that an entry has opened and no later one has closed, in the order of these entries. -/
def outstanding (opens closes : Call × Answer → Option UInt64) : List (Call × Answer) → List UInt64
  | [] => []
  | e :: rest =>
    (opens e).toList.filter (· ∉ rest.filterMap closes) ++ outstanding opens closes rest

/-- The handles that are in use, in the order in which they were issued. -/
def liveHandles (t : List (Call × Answer)) : List UInt64 :=
  outstanding issued? released? t

/-- The handles that are to be issued again, in the order in which they were given back. -/
def freedHandles (t : List (Call × Answer)) : List UInt64 :=
  outstanding released? issued? t

section

variable {opens closes : Call × Answer → Option UInt64} {t : List (Call × Answer)} {e : Call × Answer}
  {id : UInt64}

theorem outstanding_concat (t : List (Call × Answer)) (e : Call × Answer) :
    outstanding opens closes (t ++ [e]) =
      (outstanding opens closes t).filter (· ∉ (closes e).toList) ++ (opens e).toList := by
  induction t with
  | nil => simp [outstanding]
  | cons e' t ih =>
    have hcloses : (t ++ [e]).filterMap closes = t.filterMap closes ++ (closes e).toList := by
      rw [List.filterMap_append]
      cases h : closes e <;> simp [h]
    rw [List.cons_append, outstanding, outstanding, ih, hcloses, List.filter_append, List.append_assoc,
      List.filter_filter]
    simp only [List.mem_append, not_or, Bool.decide_and, Bool.and_comm]

theorem outstanding_open (hopens : opens e = some id) (hcloses : closes e = none) :
    outstanding opens closes (t ++ [e]) = outstanding opens closes t ++ [id] := by
  rw [outstanding_concat, hopens, hcloses]
  simp

theorem outstanding_close (hopens : opens e = none) (hcloses : closes e = some id) :
    outstanding opens closes (t ++ [e]) = (outstanding opens closes t).filter (· != id) := by
  rw [outstanding_concat, hopens, hcloses]
  simp [bne, beq_eq_decide]

theorem outstanding_other (hopens : opens e = none) (hcloses : closes e = none) :
    outstanding opens closes (t ++ [e]) = outstanding opens closes t := by
  rw [outstanding_concat, hopens, hcloses]
  simp

end

section

variable {m m' : Memory} {s : Slot} {id id' : UInt64}

theorem insert_cases (m : Memory) (s : Slot) :
    (∃ k rest, m.free = k :: rest ∧
      m.insert s = (UInt64.ofNat k, ⟨m.slots.set! k (some s), rest⟩)) ∨
    m.free = [] ∧ m.insert s = (UInt64.ofNat m.slots.size, ⟨m.slots.push (some s), []⟩) := by
  cases hfree : m.free with
  | nil => exact .inr ⟨rfl, by rw [insert, hfree]⟩
  | cons k rest => exact .inl ⟨k, rest, rfl, by rw [insert, hfree]⟩

theorem free?_eq_some_iff : m.free? id = some m' ↔ (m.slot? id).isSome = true ∧
    m' = ⟨m.slots.set! id.toNat none, m.free ++ [id.toNat]⟩ := by
  rw [free?]
  split
  next h => simp [h, eq_comm]
  next h => simp [h]

theorem lt_of_slot? (h : m.slot? id = some s) : id.toNat < m.slots.size := by
  have hslot : m.slots[id.toNat]? = some (some s) := Option.join_eq_some_iff.mp h
  exact (Array.getElem?_eq_some_iff.mp hslot).1

/-- The memory grows only if there is no handle to be issued again. -/
theorem size_insert (m : Memory) (s : Slot) :
    (m.insert s).2.slots.size + m.free.length = m.slots.size + (m.insert s).2.free.length + 1 ∧
      ((m.insert s).2.slots.size = m.slots.size ∨ (m.insert s).2.free = []) := by
  rcases insert_cases m s with ⟨k, rest, hfree, hinsert⟩ | ⟨hfree, hinsert⟩
  · rw [hinsert, hfree, Array.size_set!]
    exact ⟨rfl, .inl rfl⟩
  · rw [hinsert, hfree, Array.size_push]
    exact ⟨rfl, .inr rfl⟩

theorem size_insert_le (m : Memory) (s : Slot) : m.slots.size ≤ (m.insert s).2.slots.size := by
  rcases insert_cases m s with ⟨k, rest, -, hinsert⟩ | ⟨-, hinsert⟩
  · rw [hinsert, Array.size_set!]
  · rw [hinsert, Array.size_push]
    exact Nat.le_succ _

theorem getElem?_set {k : Nat} (hk : k < m.slots.size) (entry : Option Slot) (j : Nat) :
    (m.slots.set! k entry)[j]? = if k = j then some entry else m.slots[j]? := by
  rw [Array.set!_eq_setIfInBounds, Array.getElem?_setIfInBounds, if_pos hk]

theorem slot?_set (hs : m.slot? id = some s) (entry : Option Slot) (rest : List Nat) (id' : UInt64) :
    slot? ⟨m.slots.set! id.toNat entry, rest⟩ id' = if id' = id then entry else m.slot? id' := by
  rw [slot?, slot?, getElem?_set (lt_of_slot? hs)]
  simp only [UInt64.toNat_inj, eq_comm]
  split <;> rfl

theorem slot?_free? (h : m.free? id = some m') (id' : UInt64) :
    m'.slot? id' = if id' = id then none else m.slot? id' := by
  obtain ⟨hlive, rfl⟩ := free?_eq_some_iff.mp h
  obtain ⟨s, hs⟩ := Option.isSome_iff_exists.mp hlive
  exact slot?_set hs none _ id'

theorem write?_cases {offset v : UInt64} {w : Width} (h : m.write? id offset w v = some m') :
    ∃ s s', m.slot? id = some s ∧ s.write? offset w v = some s' ∧
      m' = ⟨m.slots.set! id.toNat (some s'), m.free⟩ := by
  obtain ⟨s, hs, hwrite⟩ := Option.bind_eq_some_iff.mp h
  obtain ⟨s', hs', rfl⟩ := Option.map_eq_some_iff.mp hwrite
  exact ⟨s, s', hs, hs', rfl⟩

end

/-- The handles to be issued again are those of the empty slots, and none of them is there twice. -/
structure Accounted (m : Memory) : Prop where
  nodup : m.free.Nodup
  mem_free : ∀ k, k ∈ m.free ↔ m.slots[k]? = some none

namespace Accounted

variable {m m' : Memory} {s : Slot} {id id' : UInt64}

theorem lt_size (h : m.Accounted) {k : Nat} (hk : k ∈ m.free) : k < m.slots.size :=
  (Array.getElem?_eq_some_iff.mp ((h.mem_free k).mp hk)).1

theorem insert (h : m.Accounted) (s : Slot) : (m.insert s).2.Accounted := by
  rcases insert_cases m s with ⟨k, rest, hfree, hinsert⟩ | ⟨hfree, hinsert⟩
  · have hnodup : k ∉ rest ∧ rest.Nodup := List.nodup_cons.mp (hfree ▸ h.nodup)
    have hk : k < m.slots.size := h.lt_size (hfree ▸ List.mem_cons_self)
    rw [hinsert]
    refine ⟨hnodup.2, fun j => ?_⟩
    have hempty : m.slots[j]? = some none ↔ j = k ∨ j ∈ rest := by
      rw [← h.mem_free, hfree, List.mem_cons]
    rw [getElem?_set hk]
    by_cases hj : k = j
    · subst hj
      simp [hnodup.1]
    · rw [if_neg hj, hempty]
      simp [Ne.symm hj]
  · rw [hinsert]
    refine ⟨List.nodup_nil, fun j => ?_⟩
    have hnone := h.mem_free j
    rw [hfree] at hnone
    rw [Array.getElem?_push]
    split
    next => simp
    next => exact hnone

theorem free (h : m.Accounted) (hfree : m.free? id = some m') : m'.Accounted := by
  obtain ⟨hlive, rfl⟩ := free?_eq_some_iff.mp hfree
  obtain ⟨s, hs⟩ := Option.isSome_iff_exists.mp hlive
  have hsome : m.slots[id.toNat]? = some (some s) := Option.join_eq_some_iff.mp hs
  have hnew : id.toNat ∉ m.free := by
    rw [h.mem_free, hsome]
    simp
  refine ⟨?_, fun k => ?_⟩
  · rw [List.nodup_append_comm]
    exact List.nodup_cons.mpr ⟨hnew, h.nodup⟩
  · rw [getElem?_set (lt_of_slot? hs), List.mem_append, List.mem_singleton, h.mem_free]
    by_cases hk : id.toNat = k
    · simp [hk]
    · simp [hk, Ne.symm hk]

theorem write {offset v : UInt64} {w : Width} (h : m.Accounted)
    (hwrite : m.write? id offset w v = some m') : m'.Accounted := by
  obtain ⟨s, s', hs, -, rfl⟩ := write?_cases hwrite
  have hsome : m.slots[id.toNat]? = some (some s) := Option.join_eq_some_iff.mp hs
  refine ⟨h.nodup, fun k => ?_⟩
  rw [h.mem_free, getElem?_set (lt_of_slot? hs)]
  by_cases hk : id.toNat = k
  · rw [← hk, hsome]
    simp
  · rw [if_neg hk]

theorem slot?_issued (h : m.Accounted) (hsize : m.slots.size < UInt64.size) :
    m.slot? (m.insert s).1 = none := by
  rcases insert_cases m s with ⟨k, rest, hfree, hinsert⟩ | ⟨-, hinsert⟩
  · have hk : k ∈ m.free := hfree ▸ List.mem_cons_self
    rw [hinsert, slot?, UInt64.toNat_ofNat_of_lt' (Nat.lt_trans (h.lt_size hk) hsize),
      (h.mem_free k).mp hk]
    rfl
  · rw [hinsert, slot?, UInt64.toNat_ofNat_of_lt' hsize, Array.getElem?_eq_none (Nat.le_refl _)]
    rfl

theorem free_insert (h : m.Accounted) (hsize : m.slots.size < UInt64.size) :
    (m.free.map UInt64.ofNat).filter (· != (m.insert s).1) =
      (m.insert s).2.free.map UInt64.ofNat := by
  rcases insert_cases m s with ⟨k, rest, hfree, hinsert⟩ | ⟨hfree, hinsert⟩
  · have hnodup : k ∉ rest ∧ rest.Nodup := List.nodup_cons.mp (hfree ▸ h.nodup)
    have hlt : ∀ j ∈ m.free, j < UInt64.size := fun j hj => Nat.lt_trans (h.lt_size hj) hsize
    rw [hfree, List.forall_mem_cons] at hlt
    rw [hinsert, hfree, List.map_cons, List.filter_cons_of_neg (by simp)]
    refine List.filter_eq_self.mpr fun id hid => ?_
    obtain ⟨j, hj, rfl⟩ := List.mem_map.mp hid
    rw [bne_iff_ne, Ne, ← UInt64.toNat_inj, UInt64.toNat_ofNat_of_lt' hlt.1,
      UInt64.toNat_ofNat_of_lt' (hlt.2 j hj)]
    exact fun heq => hnodup.1 (heq ▸ hj)
  · rw [hinsert, hfree]
    rfl

theorem slot?_insert (h : m.Accounted) (hsize : (m.insert s).2.slots.size < UInt64.size) :
    (m.insert s).2.slot? id = if id = (m.insert s).1 then some s else m.slot? id := by
  have hat : ∀ k, k < UInt64.size → (id = UInt64.ofNat k ↔ k = id.toNat) := by
    intro k hk
    rw [← UInt64.toNat_inj, UInt64.toNat_ofNat_of_lt' hk, eq_comm]
  rcases insert_cases m s with ⟨k, rest, hcons, hinsert⟩ | ⟨-, hinsert⟩
  · have hk : k < m.slots.size := h.lt_size (hcons ▸ List.mem_cons_self)
    rw [hinsert, Array.size_set!] at hsize
    rw [hinsert, slot?, slot?, getElem?_set hk]
    simp only [hat k (Nat.lt_trans hk hsize)]
    split <;> rfl
  · rw [hinsert, Array.size_push] at hsize
    rw [hinsert, slot?, slot?, Array.getElem?_push]
    simp only [hat _ (Nat.lt_of_succ_lt hsize), eq_comm]
    split <;> rfl

end Accounted

/-- The memory is what these entries tell of it. -/
structure Managed (t : List (Call × Answer)) (m : Memory) : Prop where
  accounted : m.Accounted
  freed : freedHandles t = m.free.map UInt64.ofNat
  nodup : (liveHandles t).Nodup
  mem_live : ∀ id, id ∈ liveHandles t ↔ (m.slot? id).isSome = true
  count : (liveHandles t).length + m.free.length = m.slots.size
  peak_le : ∀ before, before <+: t → (liveHandles before).length ≤ m.slots.size
  peak : ∃ before, before <+: t ∧ (liveHandles before).length = m.slots.size

namespace Managed

variable {t : List (Call × Answer)} {m m' : Memory} {e : Call × Answer} {id : UInt64} {s : Slot}

theorem empty : Managed [] .empty where
  accounted := ⟨List.nodup_nil, fun _ => by simp [Memory.empty]⟩
  freed := rfl
  nodup := List.nodup_nil
  mem_live := fun _ => by simp [Memory.empty, slot?, liveHandles, outstanding]
  count := rfl
  peak_le := fun before hbefore => by rw [List.prefix_nil.mp hbefore]; exact Nat.le_refl _
  peak := ⟨[], List.nil_prefix, rfl⟩

theorem not_mem_live (h : Managed t m) (hsize : m.slots.size < UInt64.size) :
    (m.insert s).1 ∉ liveHandles t := by
  rw [h.mem_live, h.accounted.slot?_issued hsize]
  exact Bool.false_ne_true

/-- The handle of a new slot is the one given back first, or the next one. -/
theorem issued_eq (h : Managed t m) (s : Slot) :
    (m.insert s).1 = (freedHandles t).headD (UInt64.ofNat m.slots.size) := by
  rw [h.freed]
  rcases insert_cases m s with ⟨k, rest, hfree, hinsert⟩ | ⟨hfree, hinsert⟩
  · rw [hinsert, hfree]
    rfl
  · rw [hinsert, hfree]
    rfl

theorem insert (h : Managed t m) (c : Call) (s : Slot)
    (hsize : (m.insert s).2.slots.size < UInt64.size) :
    Managed (t ++ [(c, .issued (m.insert s).1)]) (m.insert s).2 := by
  have hle := size_insert_le m s
  have hbefore : m.slots.size < UInt64.size := Nat.lt_of_le_of_lt hle hsize
  have hreleased : released? (c, .issued (m.insert s).1) = none := by cases c <;> rfl
  have hlive : liveHandles (t ++ [(c, .issued (m.insert s).1)]) = liveHandles t ++ [(m.insert s).1] :=
    outstanding_open rfl hreleased
  have hfreed : freedHandles (t ++ [(c, .issued (m.insert s).1)]) =
      (freedHandles t).filter (· != (m.insert s).1) := outstanding_close hreleased rfl
  have hlength : (liveHandles (t ++ [(c, .issued (m.insert s).1)])).length =
      (liveHandles t).length + 1 := by rw [hlive, List.length_append, List.length_singleton]
  obtain ⟨hroom, hgrows⟩ := size_insert m s
  have hcount := h.count
  refine ⟨h.accounted.insert s, ?_, ?_, fun id => ?_, by omega, fun before hprefix => ?_, ?_⟩
  · rw [hfreed, h.freed, h.accounted.free_insert hbefore]
  · rw [hlive, List.nodup_append_comm]
    exact List.nodup_cons.mpr ⟨h.not_mem_live hbefore, h.nodup⟩
  · rw [hlive, h.accounted.slot?_insert hsize, List.mem_append, List.mem_singleton, h.mem_live]
    by_cases hid : id = (m.insert s).1
    · simp [hid]
    · simp [hid]
  · rcases List.prefix_concat_iff.mp hprefix with rfl | hprefix
    · omega
    · exact Nat.le_trans (h.peak_le before hprefix) hle
  · rcases hgrows with hsame | hnone
    · obtain ⟨before, hprefix, hpeak⟩ := h.peak
      exact ⟨before, hprefix.trans (List.prefix_append t _), hpeak.trans hsame.symm⟩
    · rw [hnone, List.length_nil] at hroom
      exact ⟨_, List.prefix_refl _, by omega⟩

/-- The number of slots stays, and no more handles are in use than before. -/
theorem peak_of_size (h : Managed t m) (hsize : m'.slots.size = m.slots.size)
    (hle : (liveHandles (t ++ [e])).length ≤ (liveHandles t).length) :
    (∀ before, before <+: t ++ [e] → (liveHandles before).length ≤ m'.slots.size) ∧
      ∃ before, before <+: t ++ [e] ∧ (liveHandles before).length = m'.slots.size := by
  rw [hsize]
  refine ⟨fun before hprefix => ?_, ?_⟩
  · rcases List.prefix_concat_iff.mp hprefix with rfl | hprefix
    · exact Nat.le_trans hle (h.peak_le t (List.prefix_refl t))
    · exact h.peak_le before hprefix
  · obtain ⟨before, hprefix, hpeak⟩ := h.peak
    exact ⟨before, hprefix.trans (List.prefix_append t _), hpeak⟩

theorem free (h : Managed t m) (hfree : m.free? id = some m') :
    Managed (t ++ [(.free id, .done)]) m' := by
  obtain ⟨hsome, hnext⟩ := free?_eq_some_iff.mp hfree
  have hrest : m'.free = m.free ++ [id.toNat] := by rw [hnext]
  have hsize : m'.slots.size = m.slots.size := by
    rw [hnext, Array.size_set!]
  have hmem : id ∈ liveHandles t := (h.mem_live id).mpr hsome
  have hlive : liveHandles (t ++ [(.free id, .done)]) = (liveHandles t).erase id :=
    (outstanding_close rfl rfl).trans (h.nodup.erase_eq_filter id).symm
  have hlength : (liveHandles (t ++ [(.free id, .done)])).length = (liveHandles t).length - 1 := by
    rw [hlive, List.length_erase_of_mem hmem]
  obtain ⟨hle, hpeak⟩ := h.peak_of_size (e := (.free id, .done)) hsize (by omega)
  refine ⟨h.accounted.free hfree, ?_, ?_, fun id' => ?_, ?_, hle, hpeak⟩
  · have hfreed : freedHandles (t ++ [(.free id, .done)]) = freedHandles t ++ [id] :=
      outstanding_open rfl rfl
    rw [hfreed, hrest, h.freed, List.map_append, List.map_singleton, UInt64.ofNat_toNat]
  · rw [hlive]
    exact h.nodup.erase id
  · rw [hlive, h.nodup.mem_erase_iff, h.mem_live, slot?_free? hfree]
    by_cases hid : id' = id
    · simp [hid]
    · simp [hid]
  · have hpos := List.length_pos_of_mem hmem
    have hcount := h.count
    rw [hlength, hrest, hsize, List.length_append, List.length_singleton]
    omega

theorem other (h : Managed t m) (hissued : issued? e = none) (hreleased : released? e = none)
    (haccounted : m'.Accounted) (hfree : m'.free = m.free) (hsize : m'.slots.size = m.slots.size)
    (hslot : ∀ id, (m'.slot? id).isSome = (m.slot? id).isSome) : Managed (t ++ [e]) m' := by
  have hlive : liveHandles (t ++ [e]) = liveHandles t := outstanding_other hissued hreleased
  have hfreed : freedHandles (t ++ [e]) = freedHandles t := outstanding_other hreleased hissued
  obtain ⟨hle, hpeak⟩ := h.peak_of_size (e := e) hsize (by rw [hlive])
  refine ⟨haccounted, ?_, hlive ▸ h.nodup, fun id => ?_, ?_, hle, hpeak⟩
  · rw [hfreed, hfree, h.freed]
  · rw [hlive, hslot, h.mem_live]
  · rw [hlive, hfree, hsize, h.count]

end Managed

/-- What a memory can do in answer to a call. -/
inductive Responds (m : Memory) : Call → Answer → Memory → Prop
  | reserved {reserves : Nat → Bool} {size : UInt64} {s : Slot} :
      Slot.zeros? reserves size.toNat = some s →
      Responds m (.alloc size) (.issued (m.insert s).1) (m.insert s).2
  | inserted (s : Slot) : Responds m (.insert s) (.issued (m.insert s).1) (m.insert s).2
  | freed {id : UInt64} {m' : Memory} : m.free? id = some m' → Responds m (.free id) .done m'
  | written {id offset v : UInt64} {w : Width} {m' : Memory} : m.write? id offset w v = some m' →
      Responds m (.write id offset w v) .done m'
  | refused (c : Call) : Responds m c .refused m

theorem responds (m : Memory) (reserves : Nat → Bool) (c : Call) :
    Responds m c (m.respond reserves c).1 (m.respond reserves c).2 := by
  cases c with
  | alloc size =>
    rw [respond, alloc?]
    cases h : Slot.zeros? reserves size.toNat with
    | none => exact .refused _
    | some s => exact .reserved h
  | insert s => exact .inserted s
  | free id =>
    rw [respond]
    cases h : m.free? id with
    | none => exact .refused _
    | some m' => exact .freed h
  | write id offset w v =>
    rw [respond]
    cases h : m.write? id offset w v with
    | none => exact .refused _
    | some m' => exact .written h

namespace Responds

variable {t : List (Call × Answer)} {m m' : Memory} {c : Call} {a : Answer} {id : UInt64} {n : Nat}

theorem eq_insert (h : Responds m c (.issued id) m') : ∃ s, (id, m') = m.insert s := by
  cases h with
  | reserved | inserted => exact ⟨_, rfl⟩

theorem eq_of_refused (h : Responds m c .refused m') : m' = m := by
  cases h
  rfl

theorem size_le (h : Responds m c a m') : m.slots.size ≤ m'.slots.size := by
  cases h with
  | reserved | inserted => exact size_insert_le m _
  | freed hfree =>
    rw [(free?_eq_some_iff.mp hfree).2, Array.size_set!]
  | written hwrite =>
    obtain ⟨s, s', -, -, rfl⟩ := write?_cases hwrite
    rw [Array.size_set!]
  | refused => exact Nat.le_refl _

theorem managed (h : Responds m c a m') (hm : Managed t m) (hsize : m'.slots.size < UInt64.size) :
    Managed (t ++ [(c, a)]) m' := by
  cases h with
  | reserved | inserted => exact hm.insert _ _ hsize
  | freed hfree => exact hm.free hfree
  | written hwrite =>
    have haccounted := hm.accounted.write hwrite
    obtain ⟨s, s', hs, -, rfl⟩ := write?_cases hwrite
    refine hm.other rfl rfl haccounted rfl ?_ fun id => ?_
    · rw [Array.size_set!]
    · rw [slot?_set hs]
      split
      next hid => rw [hid, hs]; rfl
      next => rfl
  | refused =>
    have hreleased : released? (c, .refused) = none := by cases c <;> rfl
    exact hm.other rfl hreleased hm.accounted rfl rfl fun _ => rfl

end Responds

/-- The slot has this size, and it holds zeros wherever these entries do not tell of a write. -/
def Zeroed (id : UInt64) (size : Nat) (after : List (Call × Answer)) (m : Memory) : Prop :=
  ∃ s, m.slot? id = some s ∧ s.size = size ∧
    ∀ k < size, (∀ e ∈ after, ¬ WritesAt id k e) → s.bytes[k]? = some 0

section

variable {m m' : Memory} {c : Call} {a : Answer} {id : UInt64} {n : Nat} {s : Slot}
  {after : List (Call × Answer)}

theorem Responds.zeroed_alloc {size : UInt64} (h : Responds m (.alloc size) (.issued id) m')
    (hm : m.Accounted) (hsize : m'.slots.size < UInt64.size) :
    Zeroed id (Slot.roundUp size.toNat) [] m' := by
  cases h with
  | @reserved _ _ s hs =>
    have hzeros : s = ⟨Array.replicate (Slot.roundUp size.toNat) 0⟩ := by
      rw [Slot.zeros?, Option.ite_none_right_eq_some] at hs
      exact (Option.some.inj hs.2).symm
    refine ⟨s, ?_, ?_, fun k hk _ => ?_⟩
    · rw [hm.slot?_insert hsize, if_pos rfl]
    · rw [hzeros, Slot.size, Array.size_replicate]
    · rw [hzeros, Array.getElem?_replicate, if_pos hk]

theorem Responds.zeroed (h : Responds m c a m') (hm : m.Accounted)
    (hsize : m'.slots.size < UInt64.size) (hzeroed : Zeroed id n after m)
    (hkept : (c, a) ≠ (.free id, .done)) : Zeroed id n (after ++ [(c, a)]) m' := by
  have hbefore : m.slots.size < UInt64.size := Nat.lt_of_le_of_lt h.size_le hsize
  obtain ⟨s, hs, hn, hzero⟩ := hzeroed
  have hkeep : m'.slot? id = some s → Zeroed id n (after ++ [(c, a)]) m' := fun hs' =>
    ⟨s, hs', hn, fun k hk hnone => hzero k hk (List.forall_mem_append.mp hnone).1⟩
  -- The handle is in use, so that no new slot gets it.
  have hissued : ∀ s', (m.insert s').2.slots.size < UInt64.size →
      (m.insert s').2.slot? id = some s := by
    intro s' hsize'
    have hne : id ≠ (m.insert s').1 := by
      rintro rfl
      rw [hm.slot?_issued hbefore] at hs
      cases hs
    rw [hm.slot?_insert hsize', if_neg hne, hs]
  cases h with
  | reserved | inserted => exact hkeep (hissued _ hsize)
  | @freed id' _ hfree =>
    have hne : id ≠ id' := fun heq => hkept (heq ▸ rfl)
    exact hkeep (by rw [slot?_free? hfree, if_neg hne, hs])
  | @written id' offset v w _ hwrite =>
    obtain ⟨s₁, s₂, hs₁, hs₂, rfl⟩ := write?_cases hwrite
    by_cases hid : id = id'
    · subst hid
      obtain rfl : s = s₁ := Option.some.inj (hs.symm.trans hs₁)
      obtain ⟨hsame, hbytes⟩ := Slot.bytes_of_write? hs₂
      refine ⟨s₂, by rw [slot?_set hs, if_pos rfl], hsame.trans hn, fun k hk hnone => ?_⟩
      have hoff : ¬ (offset.toNat ≤ k ∧ k < offset.toNat + w.bytes) := fun hat =>
        hnone _ List.mem_concat_self ⟨offset, w, v, rfl, hat⟩
      rw [hbytes, if_neg hoff]
      exact hzero k hk (List.forall_mem_append.mp hnone).1
    · exact hkeep (by rw [slot?_set hs₁, if_neg hid, hs])
  | refused => exact hkeep hs

end

namespace Journal

variable {allocator : Nat → Nat → Bool}

theorem responds (allocator : Nat → Nat → Bool) (j : Journal) (c : Call) :
    Responds j.memory c (j.respond allocator c).1 (j.respond allocator c).2 :=
  j.memory.responds (allocator j.entries.length) c

theorem managed_ofCalls (calls : List Call)
    (h : (ofCalls allocator calls).memory.slots.size < UInt64.size) :
    Managed (ofCalls allocator calls).entries (ofCalls allocator calls).memory := by
  induction calls using List.reverseRecOn with
  | nil => exact .empty
  | append_singleton calls c ih =>
    rw [ofCalls_concat] at h ⊢
    have hresponds := responds allocator (ofCalls allocator calls) c
    exact hresponds.managed (ih (Nat.lt_of_le_of_lt hresponds.size_le h)) h

theorem zeroed_ofCalls {before after : List (Call × Answer)} {size id : UInt64} (calls : List Call)
    (h : (ofCalls allocator calls).memory.slots.size < UInt64.size)
    (hentries : (ofCalls allocator calls).entries = before ++ (.alloc size, .issued id) :: after)
    (hkept : (.free id, .done) ∉ after) :
    Zeroed id (Slot.roundUp size.toNat) after (ofCalls allocator calls).memory := by
  induction calls using List.reverseRecOn generalizing after with
  | nil => simp [ofCalls] at hentries
  | append_singleton calls c ih =>
    rw [ofCalls_concat] at h hentries ⊢
    have hresponds := responds allocator (ofCalls allocator calls) c
    have hsize := Nat.lt_of_le_of_lt hresponds.size_le h
    have haccounted := (managed_ofCalls calls hsize).accounted
    -- Either the last call has reserved the slot, or an earlier one has and the last one keeps it.
    rcases List.eq_nil_or_concat after with rfl | ⟨after, e, rfl⟩
    · obtain ⟨-, hlast⟩ := List.append_inj' hentries rfl
      obtain ⟨rfl, hanswer⟩ := Prod.mk.inj (List.cons.inj hlast).1
      rw [hanswer] at hresponds
      exact hresponds.zeroed_alloc haccounted h
    · rw [List.concat_eq_append] at hentries hkept ⊢
      rw [← List.cons_append, ← List.append_assoc] at hentries
      obtain ⟨hfirst, hlast⟩ := List.append_inj' hentries rfl
      obtain rfl := (List.cons.inj hlast).1
      rw [List.mem_append, not_or] at hkept
      have hzeroed := ih hsize hfirst hkept.1
      exact hresponds.zeroed haccounted h hzeroed fun heq => hkept.2 (List.mem_singleton.mpr heq.symm)

end Journal

/-- What holds of every memory with fewer slots than there are handles, whatever it was asked for and whenever
there were no bytes to be reserved. The handles to be issued again are those of its empty slots. A new slot
gets the handle that was given back first, or the next one, and that is never one in use. The handles in use
can be given back and lead to a slot, and no others. There are as many slots as there were ever in use at the
same time. A slot that was reserved is zero wherever it has not been written to since. -/
theorem handles_managed (allocator : Nat → Nat → Bool) (calls : List Call)
    (h : (Journal.ofCalls allocator calls).memory.slots.size < UInt64.size) :
    let t := (Journal.ofCalls allocator calls).entries
    let m := (Journal.ofCalls allocator calls).memory
    (m.Accounted ∧ m.free.length ≤ m.slots.size ∧ (liveHandles t).Nodup ∧
      m.live = (liveHandles t).length) ∧
    (∀ reserves c id, (m.respond reserves c).1 = .issued id →
      id ∉ liveHandles t ∧ id = (freedHandles t).headD (UInt64.ofNat m.slots.size)) ∧
    (∀ id, ((m.free? id).isSome = true ↔ id ∈ liveHandles t) ∧
      ((m.slot? id).isSome = true ↔ id ∈ liveHandles t)) ∧
    (∀ reserves c, (m.respond reserves c).1 = .refused → (m.respond reserves c).2 = m) ∧
    ((∀ before, before <+: t → (liveHandles before).length ≤ m.slots.size) ∧
      ∃ before, before <+: t ∧ (liveHandles before).length = m.slots.size) ∧
    ∀ before size id after, t = before ++ (.alloc size, .issued id) :: after →
      (.free id, .done) ∉ after →
      ∃ s, m.slot? id = some s ∧ s.size = Slot.roundUp size.toNat ∧
        ∀ offset w, offset.toNat + w.bytes ≤ s.size →
          (∀ e ∈ after, ∀ k, offset.toNat ≤ k → k < offset.toNat + w.bytes → ¬ WritesAt id k e) →
          m.read? id offset w = some 0 := by
  intro t m
  have hm : Managed t m := Journal.managed_ofCalls calls h
  have hcount := hm.count
  refine ⟨⟨hm.accounted, by omega, hm.nodup, ?_⟩, fun reserves c id hissued => ?_, fun id => ⟨?_, ?_⟩,
    fun reserves c hrefused => ?_, ⟨hm.peak_le, hm.peak⟩, fun before size id after ht hkept => ?_⟩
  · rw [Memory.live]
    omega
  · have hresponds := m.responds reserves c
    rw [hissued] at hresponds
    obtain ⟨s, hs⟩ := hresponds.eq_insert
    obtain rfl : id = (m.insert s).1 := congrArg Prod.fst hs
    exact ⟨hm.not_mem_live h, hm.issued_eq s⟩
  · rw [hm.mem_live, free?]
    split <;> simp [*]
  · exact (hm.mem_live id).symm
  · have hresponds := m.responds reserves c
    rw [hrefused] at hresponds
    exact hresponds.eq_of_refused
  · obtain ⟨s, hs, hsize, hzero⟩ := Journal.zeroed_ofCalls calls h ht hkept
    refine ⟨s, hs, hsize, fun offset w _ hnone => ?_⟩
    rw [read?, hs]
    refine Slot.read?_eq_zero fun k hlow hhigh => ?_
    exact hzero k (by omega) fun e he => hnone e he k hlow hhigh

/-- Of three slots two are given back, one of them twice. The one given back first is reserved again, after
there were no bytes for it at first, and does not show what it held before. -/
theorem handles_managed_reuse :
    let j := Journal.ofCalls (fun n _ => n != 7) [.alloc 4, .alloc 2, .alloc 8, .write 1 0 .word 7, .free 1,
      .free 2, .free 1, .alloc 5, .alloc 5]
    j.memory.slots.size < UInt64.size ∧ liveHandles j.entries = [0, 1] ∧ j.memory.live = 2 ∧
      j.memory.free? 2 = none ∧ (j.memory.insert (Slot.ofBytes [])).1 = 2 ∧
      j.memory.read? 1 0 .word = some 0 := by
  intro j
  have hsize : j.memory.slots.size < UInt64.size := by decide +kernel
  obtain ⟨⟨-, -, -, hlive⟩, hissued, hfree, -, -, hzero⟩ := handles_managed _ _ hsize
  have hhandles : liveHandles j.entries = [0, 1] := by decide +kernel
  have hfreed : freedHandles j.entries = [2] := by decide +kernel
  obtain ⟨s, -, hs, hread⟩ := hzero (j.entries.take 8) 5 1 [] (by decide +kernel) List.not_mem_nil
  refine ⟨hsize, hhandles, hlive.trans (congrArg List.length hhandles), ?_, ?_, ?_⟩
  · have hnone := (hfree 2).1
    rw [hhandles] at hnone
    simpa using hnone
  · have hnext := (hissued (fun _ => true) (.insert (Slot.ofBytes [])) _ rfl).2
    rw [hfreed] at hnext
    exact hnext
  · refine hread 0 .word ?_ fun e he => absurd he List.not_mem_nil
    rw [hs]
    decide

end Memory

end RegisterMachine
