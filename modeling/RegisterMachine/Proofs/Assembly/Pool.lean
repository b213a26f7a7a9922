import Mathlib
import RegisterMachine.Proofs.Assembly.Image
import RegisterMachine.Proofs.Machine.Memory

namespace RegisterMachine

namespace Assembly

/-- The number of bytes of a constant of the type in the pool. -/
def IntegerType.poolWidth : IntegerType → Nat
  | u8 | u16 | i8 | i16 => 2
  | u32 | i32 => 4
  | u64 | i64 => 8

/-- The bytes in the pool for a text that gives a value. Integers stand there in two's complement,
those of eight bits with two bytes, and floats with their bit patterns; the most significant byte comes
first. -/
inductive ConstantType.Occupies : ConstantType → String → Bytes → Prop
  | integer {t : IntegerType} {text : String} {z : Int} {bs : Bytes} :
      Numeral.Denotes text.toList z → t.low ≤ z → z < t.bound → bs.length = t.poolWidth →
      (bs.toNat : Int) = z % 256 ^ t.poolWidth → Occupies (.integer t) text bs
  | float {text : String} {d : Double} {bs : Bytes} : Double.ofText? text = some d →
      bs.length = 8 → bs.toNat = d.bits.toNat → Occupies .float text bs
  | string {s : String} : Occupies .string ("\"" ++ s ++ "\"") s.toUTF8.data.toList

theorem IntegerType.poolBytes_constant {t : IntegerType} {z : Int} (hlow : t.low ≤ z)
    (hhigh : z < t.bound) :
    (t.constant z).poolBytes = Bytes.ofNat t.poolWidth (z % 256 ^ t.poolWidth).toNat := by
  cases t with
  | u8 =>
    have hz : (UInt8.ofInt z).toUInt16.toNat = (z % 256 ^ 2).toNat := by
      have hlow : 0 ≤ z := hlow
      have hhigh : z < 2 ^ 8 := hhigh
      have h : (z % 2 ^ 8).toNat < 2 ^ 8 := by omega
      rw [UInt8.toNat_toUInt16, UInt8.ofInt, UInt8.toNat_ofNat_of_lt' h]
      omega
    exact congrArg (Bytes.ofNat 2) hz
  | u16 =>
    have hz : (UInt16.ofInt z).toNat = (z % 256 ^ 2).toNat := by
      have h : (z % 2 ^ 16).toNat < 2 ^ 16 := by omega
      rw [UInt16.ofInt, UInt16.toNat_ofNat_of_lt' h]
      omega
    exact congrArg (Bytes.ofNat 2) hz
  | u32 =>
    have hz : (UInt32.ofInt z).toNat = (z % 256 ^ 4).toNat := by
      have h : (z % 2 ^ 32).toNat < 2 ^ 32 := by omega
      rw [UInt32.ofInt, UInt32.toNat_ofNat_of_lt' h]
      omega
    exact congrArg (Bytes.ofNat 4) hz
  | u64 =>
    have hz : (UInt64.ofInt z).toNat = (z % 256 ^ 8).toNat := by
      have h : (z % 2 ^ 64).toNat < 2 ^ 64 := by omega
      rw [UInt64.ofInt, UInt64.toNat_ofNat_of_lt' h]
      omega
    exact congrArg (Bytes.ofNat 8) hz
  | i8 =>
    -- The sign is extended to sixteen bits before the bytes are written.
    have hint : (Int8.ofInt z).toInt16 = Int16.ofInt z :=
      Int8.toInt16_ofInt hlow (Int.le_sub_one_of_lt hhigh)
    have hz : (Int8.ofInt z).toInt16.toUInt16.toNat = (z % 256 ^ 2).toNat := by
      rw [hint]
      exact BitVec.toNat_ofInt z
    exact congrArg (Bytes.ofNat 2) hz
  | i16 =>
    have hz : (Int16.ofInt z).toUInt16.toNat = (z % 256 ^ 2).toNat := BitVec.toNat_ofInt z
    exact congrArg (Bytes.ofNat 2) hz
  | i32 =>
    have hz : (Int32.ofInt z).toUInt32.toNat = (z % 256 ^ 4).toNat := BitVec.toNat_ofInt z
    exact congrArg (Bytes.ofNat 4) hz
  | i64 =>
    have hz : (Int64.ofInt z).toUInt64.toNat = (z % 256 ^ 8).toNat := BitVec.toNat_ofInt z
    exact congrArg (Bytes.ofNat 8) hz

theorem ConstantType.Gives.occupies {t : ConstantType} {text : String} {c : Constant}
    (h : t.Gives text c) : t.Occupies text c.poolBytes := by
  cases h with
  | @integer t _ z hdenotes hlow hhigh =>
    rw [IntegerType.poolBytes_constant hlow hhigh]
    have hpos : (0 : Int) < 256 ^ t.poolWidth := by positivity
    have hnonneg := Int.emod_nonneg z hpos.ne'
    have hlt := Int.emod_lt_of_pos z hpos
    have hbound : (z % 256 ^ t.poolWidth).toNat < Bytes.count t.poolWidth := by
      rw [Int.toNat_lt hnonneg]
      exact_mod_cast hlt
    apply Occupies.integer hdenotes hlow hhigh (Bytes.length_ofNat _ _)
    rw [Bytes.toNat_ofNat, Nat.mod_eq_of_lt hbound, Int.toNat_of_nonneg hnonneg]
  | @float _ d hd =>
    have hbits : (Bytes.ofNat 8 d.bits.toNat).toNat = d.bits.toNat := by
      rw [Bytes.toNat_ofNat]
      exact Nat.mod_eq_of_lt d.bits.toNat_lt
    exact .float hd (Bytes.length_ofNat 8 _) hbits
  | string => exact .string

theorem ConstantType.Occupies.width {t : ConstantType} {text : String} {bs : Bytes}
    (h : t.Occupies text bs) : t = .string ∨ ∃ w : Width, w.bytes = bs.length := by
  cases h with
  | @integer t _ _ _ _ _ _ hlength _ =>
    right
    rw [hlength]
    cases t with
    | u8 | i8 | u16 | i16 => exact ⟨.word, rfl⟩
    | u32 | i32 => exact ⟨.double, rfl⟩
    | u64 | i64 => exact ⟨.quad, rfl⟩
  | float _ hlength _ => exact .inr ⟨.quad, hlength.symm⟩
  | string => exact .inl rfl

namespace Scope

/-- Constants and their bytes, one behind the other from a place in the pool on. Each lies where `&`
with its name says, and has as many bytes as `#` with its name says. -/
inductive Lays (s : Scope) : Nat → List ConstantLine → Bytes → Prop
  | nil {place : Nat} : s.Lays place [] []
  | cons {place : Nat} {c : ConstantLine} {cs : List ConstantLine} {bs rest : Bytes}
      {address size : UInt64} : s.value ("&" ++ c.name) = .ok address → address.toNat = place →
      s.value ("#" ++ c.name) = .ok size → size.toNat = bs.length → c.type.Occupies c.text bs →
      s.Lays (place + bs.length) cs rest → s.Lays place (c :: cs) (bs ++ rest)

variable {s : Scope}

theorem Lays.of_mem {place : Nat} {cs : List ConstantLine} {pool : Bytes} {c : ConstantLine}
    (h : s.Lays place cs pool) (hc : c ∈ cs) :
    ∃ (front bs back : Bytes) (address size : UInt64), pool = front ++ bs ++ back ∧
      s.value ("&" ++ c.name) = .ok address ∧ address.toNat = place + front.length ∧
      s.value ("#" ++ c.name) = .ok size ∧ size.toNat = bs.length ∧ c.type.Occupies c.text bs := by
  induction h with
  | nil => exact absurd hc List.not_mem_nil
  | @cons place c' cs bs rest address size haddress hplace hsize hlength hoccupies _ ih =>
    rcases List.mem_cons.mp hc with rfl | hc
    · exact ⟨[], bs, rest, address, size, rfl, haddress, hplace, hsize, hlength, hoccupies⟩
    · obtain ⟨front, bs', back, address', size', rfl, haddress', hplace', hrest⟩ := ih hc
      have hsplit : bs ++ (front ++ bs' ++ back) = bs ++ front ++ bs' ++ back := by
        simp only [List.append_assoc]
      have hfront : address'.toNat = place + (bs ++ front).length := by
        rw [hplace', List.length_append]
        omega
      exact ⟨bs ++ front, bs', back, address', size', hsplit, haddress', hfront, hrest⟩

/-- The constants behind some others lie behind these in the pool. -/
theorem Knows.lays {p : Source} (h : s.Knows p) (hlabel : ∀ c ∈ p.constants, c.name ∉ p.labelNames)
    {front back : List ConstantLine} {before values : List Constant}
    (hsplit : p.constants = front ++ back)
    (hfront : List.Forall₂ (fun (c : ConstantLine) value => c.type.Gives c.text value) front before)
    (hback : List.Forall₂ (fun (c : ConstantLine) value => c.type.Gives c.text value) back values)
    (hsize : ((before ++ values).flatMap Constant.poolBytes).length < UInt64.size) :
    s.Lays (before.flatMap Constant.poolBytes).length back (values.flatMap Constant.poolBytes) := by
  -- The place of a constant is the length of the pool before it, so the front grows on the way.
  induction hback generalizing front before with
  | nil => exact .nil
  | @cons c value back values hgives hrest ih =>
    have hmem : c ∈ p.constants := by
      rw [hsplit]
      exact List.mem_append_right front List.mem_cons_self
    have hat : p.ConstantAt c.name before value := ⟨front, c, back, hsplit, rfl, hgives, hfront⟩
    have hlengths := hsize
    rw [List.flatMap_append, List.flatMap_cons, List.length_append, List.length_append] at hlengths
    have haddress := (value_eq_ok_iff h).mpr (.constantAddress (hlabel c hmem) hat)
    have hlength := (value_eq_ok_iff h).mpr (.constantSize (hlabel c hmem) hat)
    have hsplit' : p.constants = (front ++ [c]) ++ back := by
      rw [hsplit, List.append_cons]
    have hsize' : (((before ++ [value]) ++ values).flatMap Constant.poolBytes).length < UInt64.size := by
      rw [← List.append_cons]
      exact hsize
    have hnext := ih hsplit' (List.rel_append hfront (.cons hgives .nil)) hsize'
    rw [List.flatMap_append, List.flatMap_singleton, List.length_append] at hnext
    rw [List.flatMap_cons]
    apply Lays.cons haddress _ hlength _ hgives.occupies hnext
    · exact UInt64.toNat_ofNat_of_lt' (by omega)
    · exact UInt64.toNat_ofNat_of_lt' (by omega)

end Scope

/-- The constants of a source text without an error tile the pool of the loaded image: each takes the
bytes from the place that `&` with its name stands for on, as many as `#` with its name stands for. A
new machine has the pool in its first slot, behind it at most one zero, and as long as it is there, a
load from the place of a constant gives the number of its bytes. -/
theorem constants_tile_pool {source : String} (h : (assemble source).errors = [])
    (hsize : (assemble source).byteCount < UInt64.size) :
    ∃ (p : Source) (bytes : Bytes) (i : Image),
      (∀ q : Source, Rows (Macro.expand source).lines q.rows ↔ q = p) ∧
      (assemble source).binary? = some bytes ∧ Image.load bytes = .ok i ∧
      (scope (Macro.expand source).lines).Lays 0 p.constants i.pool ∧
      ∀ stackSize : Nat,
        (i.pool ≠ [] → ∃ slot, (Machine.ofImage i stackSize).memory.slot? 0 = some slot ∧
          slot.bytes.toList = i.pool ++ List.replicate (i.pool.length % 2) 0) ∧
        ∀ c ∈ p.constants, ∃ (address size : UInt64) (bs : Bytes),
          (scope (Macro.expand source).lines).value ("&" ++ c.name) = .ok address ∧
          (scope (Macro.expand source).lines).value ("#" ++ c.name) = .ok size ∧
          size.toNat = bs.length ∧ (i.pool.drop address.toNat).take size.toNat = bs ∧
          c.type.Occupies c.text bs ∧ (c.type = .string ∨ ∃ w : Width, w.bytes = bs.length) ∧
          ∀ m : Machine, m.memory.slot? 0 = (Machine.ofImage i stackSize).memory.slot? 0 →
            m.Loads address bs := by
  obtain ⟨p, index, i, hanalysis, hwellFormed, hdescribes, hbinary, hload, hlength⟩ :=
    exists_loaded h hsize
  have hpool : i.pool.length < UInt64.size :=
    Nat.lt_of_le_of_lt (Nat.le_of_add_right_le i.length_pool_add_le) hlength
  have hlays : (scope (Macro.expand source).lines).Lays 0 p.constants i.pool :=
    hanalysis.knows.lays hwellFormed.constant_label (List.nil_append p.constants).symm .nil
      hdescribes.constants hpool
  refine ⟨p, i.encode, i, rows_iff_eq hanalysis.rows, hbinary, hload, hlays, fun stackSize => ⟨?_, ?_⟩⟩
  · intro hne
    exact ⟨_, Machine.slot?_ofImage stackSize hne, Slot.toList_ofBytes i.pool⟩
  · intro c hc
    obtain ⟨front, bs, back, address, size, hsplit, haddress, hplace, hlength, hbytes, hoccupies⟩ :=
      hlays.of_mem hc
    rw [Nat.zero_add] at hplace
    refine ⟨address, size, bs, haddress, hlength, hbytes, ?_, hoccupies, hoccupies.width, ?_⟩
    · rw [hsplit, hplace, hbytes, List.append_assoc, List.drop_left, List.take_left]
    · intro m hmemory prog ip w slot offset dest hw
      -- An access takes a byte at least, so there is a pool that holds it.
      have hne : i.pool ≠ [] := by
        intro hnil
        have hempty : front.length + bs.length + back.length = 0 := by
          rw [← List.length_append, ← List.length_append, ← hsplit, hnil]
          rfl
        have hpos := w.bytes_pos
        omega
      rw [Machine.slot?_ofImage stackSize hne] at hmemory
      have hslot : (Slot.ofBytes i.pool).bytes.toList =
          front ++ bs ++ (back ++ List.replicate (i.pool.length % 2) 0) := by
        rw [Slot.toList_ofBytes, ← List.append_assoc, ← hsplit]
      exact Machine.loads_of_slot hmemory hslot hplace prog ip w slot offset dest hw

/-- A program with two constants of eight bits, an empty text and a text of odd length. -/
theorem constants_tile_pool_mixed :
    let source := ".init main\n.u8 a 5\n.i8 b -2\n.string e \"\"\n.string s \"xyz\"\n.code\nmain:\nexit"
    (assemble source).errors = [] ∧ (assemble source).byteCount < UInt64.size ∧
      ∃ (p : Source) (bytes : Bytes) (i : Image),
        (assemble source).binary? = some bytes ∧ Image.load bytes = .ok i ∧
        i.pool = [0, 5, 255, 254, 120, 121, 122] ∧
        (scope (Macro.expand source).lines).Lays 0 p.constants i.pool ∧
        ∀ stackSize : Nat, ∃ slot, (Machine.ofImage i stackSize).memory.slot? 0 = some slot ∧
          slot.bytes.toList = [0, 5, 255, 254, 120, 121, 122, 0] := by
  intro source
  have herrors : (assemble source).errors = [] := by decide +kernel
  have hsize : (assemble source).byteCount < UInt64.size := by decide +kernel
  have himage : (assemble source).binary?.bind (fun bytes => (Image.load bytes).toOption.map Image.pool) =
      some [0, 5, 255, 254, 120, 121, 122] := by decide +kernel
  obtain ⟨p, bytes, i, -, hbinary, hload, hlays, hmachine⟩ := constants_tile_pool herrors hsize
  rw [hbinary, Option.bind_some, hload] at himage
  have hpool : i.pool = [0, 5, 255, 254, 120, 121, 122] := Option.some.inj himage
  refine ⟨herrors, hsize, p, bytes, i, hbinary, hload, hpool, hlays, fun stackSize => ?_⟩
  have hslot := (hmachine stackSize).1 (by rw [hpool]; exact List.cons_ne_nil _ _)
  rwa [hpool] at hslot

end Assembly

end RegisterMachine
